/-
Pantavisor.Lib.Ring — doubly linked rings in memory.

A ring is a head and the items behind it, each linked with the next one in both directions and
the last one with the head. `Ring` says which list the pointers of a memory spell. An item goes
in between two neighbours, or out from between them, by four pointers at most
(`Ring.insert`, `Ring.remove`). A memory has at most one list for a head (`Ring.unique`), and
two rings with heads that are not items of one another have no node in common
(`Ring.disjoint`).
-/
import Mathlib.Data.List.Chain
import Mathlib.Data.List.Nodup
import Mathlib.Logic.Function.Basic

namespace Pantavisor.Lib

open Function (update update_self update_of_ne)

/-- The pointers of the nodes of a memory; `none` is a null pointer. -/
structure Links (α : Type) where
  next : α → Option α
  prev : α → Option α

variable {α : Type} {m m' : Links α} {head item : α} {xs ys : List α}

/-- `b` is behind `a`, and `a` before `b`. -/
def Links.Linked (m : Links α) (a b : α) : Prop := m.next a = some b ∧ m.prev b = some a

instance [DecidableEq α] (m : Links α) : DecidableRel m.Linked := fun _ _ =>
  inferInstanceAs (Decidable (_ ∧ _))

/-- **A ring** with the items `xs`, in the order of `next`. -/
structure Ring (m : Links α) (head : α) (xs : List α) : Prop where
  nodup : (head :: xs).Nodup
  links : (head :: (xs ++ [head])).IsChain m.Linked

/-! ## Neighbours -/

/-- A chain reads the `next` of all but its last node, and the `prev` of all but its first. -/
theorem chain_congr : ∀ {l : List α}, l.IsChain m.Linked →
    (∀ a ∈ l.dropLast, m'.next a = m.next a) → (∀ b ∈ l.tail, m'.prev b = m.prev b) →
      l.IsChain m'.Linked
  | [], _, _, _ => .nil
  | [a], _, _, _ => .singleton a
  | a :: b :: l, h, hnext, hprev => by
      obtain ⟨⟨hn, hp⟩, hrest⟩ := List.isChain_cons_cons.mp h
      rw [List.dropLast_cons_of_ne_nil (by simp)] at hnext
      have hlink : m'.Linked a b :=
        ⟨(hnext a (by simp)).trans hn, (hprev b (by simp)).trans hp⟩
      refine .cons_cons hlink (chain_congr hrest (fun c hc => hnext c (by simp [hc])) ?_)
      exact fun c hc => hprev c (List.mem_cons_of_mem _ hc)

/-- Where a ring is cut: what is before the cut, up to the last node of it, and what is
behind, from its first node on. -/
theorem seam (head : α) (xs ys : List α) :
    ∃ l₁ l₂, head :: xs = l₁ ++ [xs.getLastD head] ∧ ys ++ [head] = ys.headD head :: l₂ := by
  refine ⟨(head :: xs).dropLast, (ys ++ [head]).tail, ?_, by cases ys <;> rfl⟩
  have hlast : xs.getLastD head = (head :: xs).getLast (by simp) :=
    (List.getLast_eq_getLastD (List.cons_ne_nil head xs)).symm
  rw [hlast, List.dropLast_append_getLast]

section Seam

variable {p q : α} {l₁ l₂ : List α}

theorem ring_iff_seam (hl : head :: xs = l₁ ++ [p]) (hr : ys ++ [head] = q :: l₂) :
    Ring m head (xs ++ ys) ↔ (head :: (xs ++ ys)).Nodup ∧
      (l₁ ++ [p]).IsChain m.Linked ∧ m.Linked p q ∧ (q :: l₂).IsChain m.Linked := by
  have hall : head :: (xs ++ ys ++ [head]) = l₁ ++ p :: q :: l₂ := by
    rw [List.append_assoc, hr, ← List.cons_append, hl, List.append_assoc, List.singleton_append]
  constructor
  · rintro ⟨hnodup, hlinks⟩
    rw [hall] at hlinks
    exact ⟨hnodup, List.isChain_append_cons_cons.mp hlinks⟩
  · rintro ⟨hnodup, hlinks⟩
    refine ⟨hnodup, ?_⟩
    rw [hall]
    exact List.isChain_append_cons_cons.mpr hlinks

/-- The two nodes at a cut are not met again on their sides, but for the head. -/
theorem seam_nodup (hl : head :: xs = l₁ ++ [p]) (hr : ys ++ [head] = q :: l₂)
    (h : (head :: (xs ++ ys)).Nodup) :
    p ∉ l₁ ∧ q ∉ (l₁ ++ [p]).tail ∧ p ∉ (q :: l₂).dropLast ∧ q ∉ l₂ := by
  have hxs : (l₁ ++ [p]).Nodup := hl ▸ (List.nodup_append.mp (List.cons_append ▸ h)).1
  have hys : (q :: l₂).Nodup := by
    rw [← hr]
    refine List.nodup_append.mpr ⟨(List.nodup_append.mp (List.nodup_cons.mp h).2).2.1, by simp, ?_⟩
    rintro a ha b hb rfl
    rw [List.mem_singleton.mp hb] at ha
    exact (List.nodup_cons.mp h).1 (List.mem_append_right _ ha)
  have hapart : ∀ a ∈ head :: xs, a ∉ ys := fun a ha ha' =>
    (List.nodup_append.mp (List.cons_append ▸ h)).2.2 a ha a ha' rfl
  refine ⟨fun hp => ?_, fun hq => ?_, fun hp => ?_, (List.nodup_cons.mp hys).1⟩
  · exact (List.nodup_append.mp hxs).2.2 p hp p (by simp) rfl
  · rw [← hl, List.tail_cons] at hq
    have hmem : q ∈ ys ++ [head] := by simp [hr]
    rcases List.mem_append.mp hmem with hq' | hq'
    · exact hapart q (List.mem_cons_of_mem _ hq) hq'
    · rw [List.mem_singleton.mp hq'] at hq
      exact (List.nodup_cons.mp h).1 (List.mem_append_left _ hq)
  · rw [← hr, List.dropLast_concat] at hp
    exact hapart p (hl ▸ by simp) hp

end Seam

/-- The node before a cut and the one behind it. -/
theorem Ring.linked (h : Ring m head (xs ++ ys)) :
    m.Linked (xs.getLastD head) (ys.headD head) := by
  obtain ⟨l₁, l₂, hl, hr⟩ := seam head xs ys
  exact ((ring_iff_seam hl hr).mp h).2.2.1

theorem Ring.next_eq (h : Ring m head (xs ++ item :: ys)) :
    m.next item = some (ys.headD head) := by
  have h' : Ring m head ((xs ++ [item]) ++ ys) := by rwa [List.append_assoc]
  simpa using h'.linked.1

theorem Ring.prev_eq (h : Ring m head (xs ++ item :: ys)) :
    m.prev item = some (xs.getLastD head) := h.linked.2

/-! ## Two memories -/

/-- A ring reads the pointers of its nodes. -/
theorem Ring.congr (h : Ring m head xs)
    (heq : ∀ a ∈ head :: xs, m'.next a = m.next a ∧ m'.prev a = m.prev a) : Ring m' head xs := by
  have hmem : ∀ a ∈ head :: (xs ++ [head]), a ∈ head :: xs := by
    intro a ha
    simpa [or_comm] using ha
  refine ⟨h.nodup, chain_congr h.links (fun a ha => ?_) fun b hb => ?_⟩
  · exact (heq a (hmem a (List.dropLast_subset _ ha))).1
  · exact (heq b (hmem b (List.mem_of_mem_tail hb))).2

/-- The chain of a cut ring is kept where only the pointers at the cut are written. -/
theorem ring_sides (m' : Links α) {x p q : α} {l₁ l₂ : List α}
    (hl : head :: xs = l₁ ++ [p]) (hr : ys ++ [head] = q :: l₂)
    (hnodup : (head :: (xs ++ ys)).Nodup) (hx : x ∉ head :: (xs ++ ys))
    (hleft : (l₁ ++ [p]).IsChain m.Linked) (hright : (q :: l₂).IsChain m.Linked)
    (hnext : ∀ a, a ≠ x → a ≠ p → m'.next a = m.next a)
    (hprev : ∀ a, a ≠ x → a ≠ q → m'.prev a = m.prev a) :
    (l₁ ++ [p]).IsChain m'.Linked ∧ (q :: l₂).IsChain m'.Linked := by
  obtain ⟨hp, hq, hp', hq'⟩ := seam_nodup hl hr hnodup
  have hxs : ∀ a ∈ l₁ ++ [p], a ≠ x := by
    rintro a ha rfl
    rw [← hl] at ha
    exact hx (by simpa using Or.imp_right Or.inl (List.mem_cons.mp ha))
  have hys : ∀ a ∈ q :: l₂, a ≠ x := by
    rintro a ha rfl
    rw [← hr] at ha
    refine hx ?_
    rcases List.mem_append.mp ha with ha | ha
    · exact List.mem_cons_of_mem _ (List.mem_append_right _ ha)
    · rw [List.mem_singleton.mp ha]
      exact List.mem_cons_self
  constructor
  · refine chain_congr hleft (fun a ha => hnext a (hxs a (List.dropLast_subset _ ha)) ?_)
      fun b hb => hprev b (hxs b (List.mem_of_mem_tail hb)) ?_
    · rintro rfl
      rw [List.dropLast_concat] at ha
      exact hp ha
    · rintro rfl
      exact hq hb
  · refine chain_congr hright (fun a ha => hnext a (hys a (List.dropLast_subset _ ha)) ?_)
      fun b hb => hprev b (hys b (List.mem_of_mem_tail hb)) ?_
    · rintro rfl
      exact hp' ha
    · rintro rfl
      exact hq' hb

variable [DecidableEq α]

/-- **An item goes in** between two neighbours. -/
theorem Ring.insert (h : Ring m head (xs ++ ys)) (hnew : item ∉ head :: (xs ++ ys))
    (hnext : m'.next = update (update m.next item (some (ys.headD head))) (xs.getLastD head)
      (some item))
    (hprev : m'.prev = update (update m.prev item (some (xs.getLastD head))) (ys.headD head)
      (some item)) :
    Ring m' head (xs ++ item :: ys) := by
  obtain ⟨l₁, l₂, hl, hr⟩ := seam head xs ys
  obtain ⟨hnodup, hleft, -, hright⟩ := (ring_iff_seam hl hr).mp h
  generalize xs.getLastD head = p at hl hnext hprev hleft
  generalize ys.headD head = q at hr hnext hprev hright
  have hp : item ≠ p := by
    rintro rfl
    have hmem : item ∈ head :: xs := by simp [hl]
    exact hnew (by simpa using Or.imp_right Or.inl (List.mem_cons.mp hmem))
  have hq : item ≠ q := by
    rintro rfl
    have hmem : item ∈ ys ++ [head] := by simp [hr]
    rw [List.mem_append, List.mem_singleton] at hmem
    exact hnew (by simpa using hmem.symm.imp_right Or.inr)
  obtain ⟨hleft, hright⟩ := ring_sides m' hl hr hnodup hnew hleft hright
    (fun a hx ha => by rw [hnext, update_of_ne ha, update_of_ne hx])
    (fun a hx ha => by rw [hprev, update_of_ne ha, update_of_ne hx])
  have hall : head :: (xs ++ item :: ys ++ [head]) = l₁ ++ p :: item :: q :: l₂ := by
    rw [List.append_assoc, List.cons_append, hr, ← List.cons_append, hl, List.append_assoc,
      List.singleton_append]
  refine ⟨?_, ?_⟩
  · rw [← List.cons_append, List.nodup_middle]
    exact List.nodup_cons.mpr ⟨hnew, hnodup⟩
  · rw [hall]
    refine List.isChain_append_cons_cons.mpr ⟨hleft, ⟨?_, ?_⟩, .cons_cons ⟨?_, ?_⟩ hright⟩
    · rw [hnext, update_self]
    · rw [hprev, update_of_ne hq, update_self]
    · rw [hnext, update_of_ne hp, update_self]
    · rw [hprev, update_self]

/-- **An item goes out** from between its neighbours, and keeps no pointers. -/
theorem Ring.remove (h : Ring m head (xs ++ item :: ys))
    (hnext : m'.next = update (update m.next (xs.getLastD head) (some (ys.headD head))) item none)
    (hprev : m'.prev = update (update m.prev (ys.headD head) (some (xs.getLastD head))) item
      none) :
    Ring m' head (xs ++ ys) := by
  obtain ⟨l₁, l₂, hl, hr⟩ := seam head xs ys
  have hall : head :: (xs ++ item :: ys ++ [head]) = l₁ ++ xs.getLastD head :: item ::
      ys.headD head :: l₂ := by
    rw [List.append_assoc, List.cons_append, hr, ← List.cons_append, hl, List.append_assoc,
      List.singleton_append]
  obtain ⟨hall', hlinks⟩ := h
  rw [hall] at hlinks
  obtain ⟨hleft, -, hright⟩ := List.isChain_append_cons_cons.mp hlinks
  obtain ⟨-, hright⟩ := List.isChain_cons_cons.mp hright
  rw [← List.cons_append, List.nodup_middle, List.nodup_cons] at hall'
  obtain ⟨hnew, hnodup⟩ := hall'
  refine (ring_iff_seam hl hr).mpr ?_
  generalize xs.getLastD head = p at *
  generalize ys.headD head = q at *
  have hp : p ≠ item := by
    rintro rfl
    exact hnew (List.mem_append_left _ (by simp [hl]))
  have hq : q ≠ item := by
    rintro rfl
    have hmem : q ∈ ys ++ [head] := by simp [hr]
    rw [List.mem_append, List.mem_singleton] at hmem
    exact hnew (by simpa [or_assoc] using hmem.symm.imp_right Or.inr)
  obtain ⟨hleft, hright⟩ := ring_sides m' hl hr hnodup hnew hleft hright
    (fun a hx ha => by rw [hnext, update_of_ne hx, update_of_ne ha])
    (fun a hx ha => by rw [hprev, update_of_ne hx, update_of_ne ha])
  refine ⟨hnodup, hleft, ⟨?_, ?_⟩, hright⟩
  · rw [hnext, update_of_ne hp, update_self]
  · rw [hprev, update_of_ne hq, update_self]

/-! ## What a memory has -/

omit [DecidableEq α]

/-- The path from one node to another is given by the pointers. -/
theorem path_unique {b : α} : ∀ {a : α} {xs ys : List α},
    (a :: (xs ++ [b])).IsChain m.Linked → (a :: (ys ++ [b])).IsChain m.Linked →
      b ∉ xs → b ∉ ys → xs = ys
  | _, [], [], _, _, _, _ => rfl
  | a, [], y :: ys, h, h', _, hb => by
      have hy : some b = some y :=
        (List.isChain_cons_cons.mp h).1.1.symm.trans (List.isChain_cons_cons.mp h').1.1
      exact absurd (by simp [Option.some.inj hy]) hb
  | a, x :: xs, [], h, h', hb, _ => by
      have hx : some x = some b :=
        (List.isChain_cons_cons.mp h).1.1.symm.trans (List.isChain_cons_cons.mp h').1.1
      exact absurd (by simp [Option.some.inj hx]) hb
  | a, x :: xs, y :: ys, h, h', hb, hb' => by
      obtain ⟨hx, hxs⟩ := List.isChain_cons_cons.mp h
      obtain ⟨hy, hys⟩ := List.isChain_cons_cons.mp h'
      obtain rfl : x = y := Option.some.inj (hx.1.symm.trans hy.1)
      rw [path_unique hxs hys (fun h => hb (List.mem_cons_of_mem _ h))
        fun h => hb' (List.mem_cons_of_mem _ h)]

/-- **A head has one list.** -/
theorem Ring.unique (h : Ring m head xs) (h' : Ring m head ys) : xs = ys :=
  path_unique h.links h'.links (List.nodup_cons.mp h.nodup).1 (List.nodup_cons.mp h'.nodup).1

/-- The nodes of a ring lead to nodes of it. -/
theorem Ring.closed (h : Ring m head xs) {a b : α} (ha : a ∈ head :: xs)
    (hb : m.next a = some b) : b ∈ head :: xs := by
  have hnext : ∀ {ys zs : List α}, xs = ys ++ zs → m.next (ys.getLastD head) = some b →
      b ∈ head :: xs := by
    intro ys zs hsplit hb
    have hlink := (hsplit ▸ h : Ring m head (ys ++ zs)).linked.1
    rw [Option.some.inj (hb.symm.trans hlink), hsplit]
    cases zs <;> simp
  rcases List.mem_cons.mp ha with rfl | ha
  · exact hnext (List.nil_append xs).symm hb
  · obtain ⟨ys, zs, rfl⟩ := List.append_of_mem ha
    exact hnext (List.append_cons ys a zs) (by simpa using hb)

/-- From any node of a ring the pointers lead to its head. -/
theorem Ring.reaches (h : Ring m head xs) {P : α → Prop} (hP : ∀ a b, P a → m.next a = some b → P b)
    {a : α} (ha : a ∈ head :: xs) (hPa : P a) : P head := by
  have hpath : ∀ {l : List α} {a : α}, (a :: (l ++ [head])).IsChain m.Linked → P a → P head := by
    intro l
    induction l with
    | nil => exact fun hl hPa => hP _ _ hPa (List.isChain_cons_cons.mp hl).1.1
    | cons b l ih =>
        intro a hl hPa
        obtain ⟨hlink, hrest⟩ := List.isChain_cons_cons.mp hl
        exact ih hrest (hP _ _ hPa hlink.1)
  rcases List.mem_cons.mp ha with rfl | ha
  · exact hPa
  · obtain ⟨ys, zs, rfl⟩ := List.append_of_mem ha
    have hlinks := h.links
    rw [List.append_assoc, List.cons_append, ← List.cons_append] at hlinks
    exact hpath (List.isChain_split.mp hlinks).2 hPa

/-- **Two rings are apart**, if the head of one is not an item of the other. -/
theorem Ring.disjoint {b : α} (h : Ring m head xs) (h' : Ring m b ys) (hne : b ∉ head :: xs) :
    (head :: xs).Disjoint (b :: ys) := by
  intro a ha ha'
  exact hne (h'.reaches (fun _ _ hc hd => h.closed hc hd) ha' ha)

end Pantavisor.Lib
