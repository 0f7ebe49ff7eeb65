/-
Pantavisor.Utils.DlList — the doubly linked lists of `utils/list.h`.

The nodes lie within the structures they link, so a memory is given by the pointers of its
nodes and by which of them are allocated. A load or a store at a null pointer or at a node that
is freed has no result. `DlList` says which items the pointers of a head spell: each function
that is called on such a list gives one again, writes to its nodes only, and has a result.

`dl_list_for_each_safe` reads the pointer to the next item before its body. The rule for it is
that a body may take its own item out of the list and free it, and may do what it wants
elsewhere: each item is visited once, and the loop ends (`dlListForEachSafe_rule`).
-/
import Pantavisor.Lib.Ring

namespace Pantavisor.Utils

open Pantavisor.Lib
open Function (update update_self update_of_ne)

/-- The list nodes of a memory. -/
structure DlHeap (α : Type) extends Links α where
  /-- the nodes that are allocated -/
  live : α → Bool

variable {α : Type} [DecidableEq α]

/-! ## Loads and stores -/

def DlHeap.getNext (h : DlHeap α) (a : α) : Option (Option α) :=
  if h.live a then some (h.next a) else none

def DlHeap.getPrev (h : DlHeap α) (a : α) : Option (Option α) :=
  if h.live a then some (h.prev a) else none

def DlHeap.setNext (h : DlHeap α) (a : α) (p : Option α) : Option (DlHeap α) :=
  if h.live a then some { h with next := update h.next a p } else none

def DlHeap.setPrev (h : DlHeap α) (a : α) (p : Option α) : Option (DlHeap α) :=
  if h.live a then some { h with prev := update h.prev a p } else none

/-- `calloc` of a structure with a node -/
def DlHeap.calloc (h : DlHeap α) (a : α) : DlHeap α where
  next := update h.next a none
  prev := update h.prev a none
  live := update h.live a true

/-- `free` of a structure with a node -/
def DlHeap.free (h : DlHeap α) (a : α) : Option (DlHeap α) :=
  if h.live a then some { h with live := update h.live a false } else none

/-! ## The code -/

/-- `dl_list_init` -/
def dlListInit (h : DlHeap α) (list : α) : Option (DlHeap α) := do
  let h ← h.setNext list (some list)
  h.setPrev list (some list)

/-- `dl_list_add` -/
def dlListAdd (h : DlHeap α) (list item : α) : Option (DlHeap α) := do
  let h ← h.setNext item (← h.getNext list)
  let h ← h.setPrev item (some list)
  let next ← h.getNext list
  let h ← h.setPrev (← next) (some item)
  h.setNext list (some item)

/-- `dl_list_add_tail` -/
def dlListAddTail (h : DlHeap α) (list item : α) : Option (DlHeap α) := do
  let prev ← h.getPrev list
  dlListAdd h (← prev) item

/-- `dl_list_del` -/
def dlListDel (h : DlHeap α) (item : α) : Option (DlHeap α) := do
  let next ← h.getNext item
  let h ← h.setPrev (← next) (← h.getPrev item)
  let prev ← h.getPrev item
  let h ← h.setNext (← prev) (← h.getNext item)
  let h ← h.setNext item none
  h.setPrev item none

/-- `dl_list_empty` -/
def dlListEmpty (h : DlHeap α) (list : α) : Option Bool :=
  (h.getNext list).map fun next => next = some list

/-- `dl_list_first`, which may be null -/
def dlListFirst (h : DlHeap α) (list : α) : Option (Option α) := do
  if ← dlListEmpty h list then some none else h.getNext list

/-- The loop of `dl_list_for_each_safe`, at an item and the one behind it. `none` also stands for
a loop that goes on for longer than `fuel`. -/
def forEachSafe {σ : Type} (links : σ → DlHeap α) (body : α → σ → Option σ) (list : α) :
    Nat → Option α → Option α → σ → Option σ
  | 0, _, _, _ => none
  | fuel + 1, item, n, s =>
    if item = some list then some s
    else do
      let s ← body (← item) s
      forEachSafe links body list fuel n (← (links s).getNext (← n)) s

/-- `dl_list_for_each_safe` -/
def dlListForEachSafe {σ : Type} (links : σ → DlHeap α) (body : α → σ → Option σ) (list : α)
    (fuel : Nat) (s : σ) : Option σ := do
  let item ← (links s).getNext list
  let n ← (links s).getNext (← item)
  forEachSafe links body list fuel item n s

/-- The loop of `dl_list_for_each_safe` with a body that returns an item that passes a test. -/
def findSafe (h : DlHeap α) (test : α → Option Bool) (list : α) :
    Nat → Option α → Option α → Option (Option α)
  | 0, _, _ => none
  | fuel + 1, item, n =>
    if item = some list then some none
    else do
      if ← test (← item) then some item
      else findSafe h test list fuel n (← h.getNext (← n))

/-- A search by `dl_list_for_each_safe`: the first item that passes a test, or null -/
def dlListFind (h : DlHeap α) (test : α → Option Bool) (list : α) (fuel : Nat) :
    Option (Option α) := do
  let item ← h.getNext list
  let n ← h.getNext (← item)
  findSafe h test list fuel item n

/-! ## Lists -/

variable {h h' : DlHeap α} {list item : α} {xs ys : List α}

/-- **A list** with the items `xs`: a ring of allocated nodes. -/
structure DlList (h : DlHeap α) (list : α) (xs : List α) : Prop extends
    Ring h.toLinks list xs where
  live : ∀ a ∈ list :: xs, h.live a = true

/-- Nothing is written but at some nodes. -/
def SameOff (as : List α) (h h' : DlHeap α) : Prop :=
  ∀ a, a ∉ as → h'.next a = h.next a ∧ h'.prev a = h.prev a ∧ h'.live a = h.live a

omit [DecidableEq α] in
/-- What is written elsewhere does nothing to a list. -/
theorem DlList.frame {as : List α} (hl : DlList h list xs) (hs : SameOff as h h')
    (hd : (list :: xs).Disjoint as) : DlList h' list xs where
  toRing := hl.toRing.congr fun a ha => ⟨(hs a (hd ha)).1, (hs a (hd ha)).2.1⟩
  live a ha := (hs a (hd ha)).2.2.trans (hl.live a ha)

omit [DecidableEq α] in
theorem SameOff.trans {as : List α} {h'' : DlHeap α} (h₁ : SameOff as h h')
    (h₂ : SameOff as h' h'') : SameOff as h h'' := fun a ha =>
  ⟨(h₂ a ha).1.trans (h₁ a ha).1, (h₂ a ha).2.1.trans (h₁ a ha).2.1,
    (h₂ a ha).2.2.trans (h₁ a ha).2.2⟩

omit [DecidableEq α] in
theorem SameOff.mono {as bs : List α} (hs : SameOff as h h') (hsub : as ⊆ bs) :
    SameOff bs h h' := fun a ha => hs a fun hmem => ha (hsub hmem)

/-! ## What the functions do to a list -/

theorem dlListInit_spec (hlive : h.live list = true) : ∃ h', dlListInit h list = some h' ∧
    DlList h' list [] ∧ SameOff [list] h h' := by
  have hinit : dlListInit h list
      = some ⟨⟨update h.next list (some list), update h.prev list (some list)⟩, h.live⟩ := by
    simp [dlListInit, DlHeap.setNext, DlHeap.setPrev, hlive]
  refine ⟨_, hinit, ⟨⟨by simp, ?_⟩, ?_⟩, ?_⟩
  · refine .cons_cons ⟨?_, ?_⟩ (.singleton _) <;> exact update_self ..
  · simpa using hlive
  · intro a ha
    rw [List.mem_singleton] at ha
    exact ⟨update_of_ne ha _ _, update_of_ne ha _ _, rfl⟩

omit [DecidableEq α] in
/-- The nodes at a cut are in the list. -/
theorem ends_mem (list : α) (xs ys : List α) :
    xs.getLastD list ∈ list :: (xs ++ ys) ∧ ys.headD list ∈ list :: (xs ++ ys) := by
  constructor
  · cases xs using List.reverseRecOn with
    | nil => simp
    | append_singleton xs x => simp
  · cases ys <;> simp

/-- The stores of `dl_list_add`, between two nodes. -/
theorem dlListAdd_eq {p q : α} (hp : h.live p = true) (hq : h.live q = true)
    (hitem : h.live item = true) (hnext : h.next p = some q) (hne : p ≠ item) :
    dlListAdd h p item = some ⟨⟨update (update h.next item (some q)) p (some item),
      update (update h.prev item (some p)) q (some item)⟩, h.live⟩ := by
  simp [dlListAdd, DlHeap.getNext, DlHeap.setNext, DlHeap.setPrev, hp, hq, hitem, hnext, hne]

/-- The stores of `dl_list_del`, between two nodes. -/
theorem dlListDel_eq {p q : α} (hp : h.live p = true) (hq : h.live q = true)
    (hitem : h.live item = true) (hnext : h.next item = some q) (hprev : h.prev item = some p)
    (hne : q ≠ item) :
    dlListDel h item = some ⟨⟨update (update h.next p (some q)) item none,
      update (update h.prev q (some p)) item none⟩, h.live⟩ := by
  simp [dlListDel, DlHeap.getNext, DlHeap.getPrev, DlHeap.setNext, DlHeap.setPrev, hp, hq, hitem,
    hnext, hprev, hne.symm]

/-- An item is added behind any node of a list, and comes to be in the list there. -/
theorem dlListAdd_at (hl : DlList h list (xs ++ ys)) (hnew : item ∉ list :: (xs ++ ys))
    (hlive : h.live item = true) : ∃ h', dlListAdd h (xs.getLastD list) item = some h' ∧
      DlList h' list (xs ++ item :: ys) ∧ SameOff (item :: list :: (xs ++ ys)) h h' ∧
        h'.live = h.live := by
  obtain ⟨hp, hq⟩ := ends_mem list xs ys
  have hne : xs.getLastD list ≠ item := fun heq => hnew (heq ▸ hp)
  have hadd := dlListAdd_eq (hl.live _ hp) (hl.live _ hq) hlive hl.linked.1 hne
  refine ⟨_, hadd, ⟨hl.insert hnew rfl rfl, ?_⟩, ?_, rfl⟩
  · intro a ha
    rcases List.mem_append.mp (List.cons_append ▸ ha) with ha | ha
    · exact hl.live a (by simpa using (List.mem_cons.mp ha).imp_right Or.inl)
    · rcases List.mem_cons.mp ha with rfl | ha
      · exact hlive
      · exact hl.live a (by simp [ha])
  · intro a ha
    rw [List.mem_cons, not_or] at ha
    have hap : a ≠ xs.getLastD list := fun heq => ha.2 (heq ▸ hp)
    have haq : a ≠ ys.headD list := fun heq => ha.2 (heq ▸ hq)
    refine ⟨?_, ?_, rfl⟩
    · simp only [update_of_ne hap, update_of_ne ha.1]
    · simp only [update_of_ne haq, update_of_ne ha.1]

/-- **`dl_list_add`** puts an item first. -/
theorem dlListAdd_spec (hl : DlList h list xs) (hnew : item ∉ list :: xs)
    (hlive : h.live item = true) : ∃ h', dlListAdd h list item = some h' ∧
      DlList h' list (item :: xs) ∧ SameOff (item :: list :: xs) h h' ∧ h'.live = h.live := by
  have hl' : DlList h list ([] ++ xs) := hl
  exact dlListAdd_at hl' hnew hlive

/-- **`dl_list_add_tail`** puts an item last. -/
theorem dlListAddTail_spec (hl : DlList h list xs) (hnew : item ∉ list :: xs)
    (hlive : h.live item = true) : ∃ h', dlListAddTail h list item = some h' ∧
      DlList h' list (xs ++ [item]) ∧ SameOff (item :: list :: xs) h h' ∧ h'.live = h.live := by
  have hprev : h.getPrev list = some (some (xs.getLastD list)) := by
    have hring : Ring h.toLinks list (xs ++ []) := by
      rw [List.append_nil]
      exact hl.toRing
    rw [DlHeap.getPrev, hl.live list List.mem_cons_self, if_pos rfl]
    exact congrArg some hring.linked.2
  rw [← List.append_nil xs] at hl hnew
  obtain ⟨h', hadd, hl', hsame⟩ := dlListAdd_at hl hnew hlive
  rw [List.append_nil] at hsame
  exact ⟨h', by rw [dlListAddTail, hprev]; exact hadd, hl', hsame⟩

/-- **`dl_list_del`** takes an item out of its list. -/
theorem dlListDel_spec (hl : DlList h list (xs ++ item :: ys)) : ∃ h',
    dlListDel h item = some h' ∧ DlList h' list (xs ++ ys) ∧
      SameOff (list :: (xs ++ item :: ys)) h h' ∧ h'.live = h.live := by
  obtain ⟨hp, hq⟩ := ends_mem list xs ys
  have hsub : ∀ a ∈ list :: (xs ++ ys), a ∈ list :: (xs ++ item :: ys) := by
    intro a ha
    simp only [List.mem_cons, List.mem_append] at ha ⊢
    tauto
  have hout : item ∉ list :: (xs ++ ys) := by
    have hnodup := hl.nodup
    rw [← List.cons_append, List.nodup_middle, List.nodup_cons] at hnodup
    exact hnodup.1
  have hne : ys.headD list ≠ item := fun heq => hout (heq ▸ hq)
  have hdel := dlListDel_eq (hl.live _ (hsub _ hp)) (hl.live _ (hsub _ hq))
    (hl.live item (by simp)) hl.next_eq hl.prev_eq hne
  refine ⟨_, hdel, ⟨hl.remove rfl rfl, fun a ha => hl.live a (hsub a ha)⟩, ?_, rfl⟩
  intro a ha
  have hai : a ≠ item := fun heq => ha (heq ▸ by simp)
  have hap : a ≠ xs.getLastD list := fun heq => ha (heq ▸ hsub _ hp)
  have haq : a ≠ ys.headD list := fun heq => ha (heq ▸ hsub _ hq)
  refine ⟨?_, ?_, rfl⟩
  · simp only [update_of_ne hai, update_of_ne hap]
  · simp only [update_of_ne hai, update_of_ne haq]

omit [DecidableEq α] in
theorem getNext_eq (hl : DlList h list (xs ++ item :: ys)) :
    h.getNext item = some (some (ys.headD list)) := by
  rw [DlHeap.getNext, hl.live item (by simp), if_pos rfl, hl.next_eq]

omit [DecidableEq α] in
theorem getNext_head (hl : DlList h list xs) : h.getNext list = some (some (xs.headD list)) := by
  have hring : Ring h.toLinks list ([] ++ xs) := hl.toRing
  rw [DlHeap.getNext, hl.live list List.mem_cons_self, if_pos rfl]
  exact congrArg some hring.linked.1

omit [DecidableEq α] in
/-- The node behind the first of the items that are left. -/
theorem getNext_behind (hl : DlList h list (xs ++ ys)) :
    ∃ n, h.getNext (ys.headD list) = some n ∧ (ys ≠ [] → n = some (ys.tail.headD list)) := by
  cases ys with
  | nil =>
      rw [List.append_nil] at hl
      exact ⟨_, getNext_head hl, fun h => absurd rfl h⟩
  | cons y ys => exact ⟨_, getNext_eq hl, fun _ => rfl⟩

/-- **`dl_list_empty`** tells whether there are items. -/
theorem dlListEmpty_eq (hl : DlList h list xs) : dlListEmpty h list = some (xs.isEmpty) := by
  rw [dlListEmpty, getNext_head hl, Option.map_some]
  cases xs with
  | nil => simp
  | cons x xs =>
      have hne : x ≠ list := by
        rintro rfl
        exact (List.nodup_cons.mp hl.nodup).1 List.mem_cons_self
      simp [hne]

/-- The node of an item is no empty list. -/
theorem dlListEmpty_item (hl : DlList h list (xs ++ item :: ys)) :
    dlListEmpty h item = some false := by
  have hne : ys.headD list ≠ item := by
    have hnodup := hl.nodup
    rw [← List.cons_append, List.nodup_middle, List.nodup_cons] at hnodup
    exact fun heq => hnodup.1 (heq ▸ (ends_mem list xs ys).2)
  rw [dlListEmpty, getNext_eq hl, Option.map_some]
  simpa using hne

/-- **`dl_list_first`** gives the first item. -/
theorem dlListFirst_eq (hl : DlList h list xs) : dlListFirst h list = some xs.head? := by
  rw [dlListFirst, dlListEmpty_eq hl]
  cases xs with
  | nil => rfl
  | cons x xs => simpa using getNext_head hl

/-! ## Loops -/

section Loops

variable {σ : Type} {links : σ → DlHeap α} {body : α → σ → Option σ}
  {I : List α → List α → σ → Prop}

/-- The loop at the first of the items that are left. -/
theorem forEachSafe_rule
    (hlist : ∀ kept rest s, I kept rest s → DlList (links s) list (kept ++ rest))
    (hbody : ∀ kept x rest s, I kept (x :: rest) s → ∃ s', body x s = some s' ∧
      (I (kept ++ [x]) rest s' ∨ I kept rest s')) {fuel : Nat} : ∀ {rest kept : List α} {s : σ}
        {n : Option α}, I kept rest s → rest.length < fuel →
      (rest ≠ [] → n = some (rest.tail.headD list)) →
      ∃ kept' s', forEachSafe links body list fuel (some (rest.headD list)) n s = some s' ∧
        I kept' [] s' := by
  induction fuel with
  | zero => exact fun _ hlt => absurd hlt (Nat.not_lt_zero _)
  | succ fuel ih =>
      intro rest kept s n hI hlt hn
      cases rest with
      | nil => exact ⟨kept, s, by simp [forEachSafe], hI⟩
      | cons x rest =>
          obtain rfl := hn (List.cons_ne_nil _ _)
          have hne : x ≠ list := by
            rintro rfl
            exact (List.nodup_cons.mp (hlist _ _ _ hI).nodup).1 (by simp)
          obtain ⟨s', hs', hI'⟩ := hbody kept x rest s hI
          -- the item that was read before the body is still the next one
          have hstep : ∀ kept', I kept' rest s' → ∃ kept'' s'', forEachSafe links body list
              (fuel + 1) (some x) (some (rest.headD list)) s = some s'' ∧ I kept'' [] s'' := by
            intro kept' hI'
            obtain ⟨n, hnext, hn⟩ := getNext_behind (hlist _ _ _ hI')
            obtain ⟨kept'', s'', hrun, hend⟩ :=
              ih hI' (Nat.lt_of_succ_lt_succ hlt) hn
            refine ⟨kept'', s'', ?_, hend⟩
            rw [forEachSafe, if_neg (by simpa using hne)]
            simpa only [Option.bind_eq_bind, Option.bind_some, hs', hnext] using hrun
          rcases hI' with hI' | hI'
          · exact hstep _ hI'
          · exact hstep _ hI'

/-- **A loop over a list** that holds the items that were kept and those that are left: its body
keeps its item or takes it out, and leaves the others in the list. -/
theorem dlListForEachSafe_rule
    (hlist : ∀ kept rest s, I kept rest s → DlList (links s) list (kept ++ rest))
    (hbody : ∀ kept x rest s, I kept (x :: rest) s → ∃ s', body x s = some s' ∧
      (I (kept ++ [x]) rest s' ∨ I kept rest s')) {s : σ} (hI : I [] xs s) {fuel : Nat}
    (hlt : xs.length < fuel) : ∃ kept s',
      dlListForEachSafe links body list fuel s = some s' ∧ I kept [] s' := by
  have hl : DlList (links s) list xs := hlist [] xs s hI
  have hcut : DlList (links s) list ([] ++ xs) := hl
  obtain ⟨n, hnext, hn⟩ := getNext_behind hcut
  obtain ⟨kept, s', hrun, hend⟩ := forEachSafe_rule hlist hbody hI hlt hn
  refine ⟨kept, s', ?_, hend⟩
  rw [dlListForEachSafe, getNext_head hl]
  simpa only [Option.bind_eq_bind, Option.bind_some, hnext] using hrun

end Loops

/-- **A search** gives the first item that passes the test. -/
theorem dlListFind_eq (hl : DlList h list xs) {test : α → Option Bool} {p : α → Bool}
    (htest : ∀ x ∈ xs, test x = some (p x)) {fuel : Nat} (hlt : xs.length < fuel) :
    dlListFind h test list fuel = some (xs.find? p) := by
  have hloop : ∀ (fuel : Nat) (done rest : List α) (n : Option α), xs = done ++ rest →
      rest.length < fuel → (rest ≠ [] → n = some (rest.tail.headD list)) →
        findSafe h test list fuel (some (rest.headD list)) n = some (rest.find? p) := by
    intro fuel
    induction fuel with
    | zero => exact fun _ _ _ _ hlt => absurd hlt (Nat.not_lt_zero _)
    | succ fuel ih =>
        intro done rest n hxs hlt hn
        cases rest with
        | nil => simp [findSafe]
        | cons x rest =>
            obtain rfl := hn (List.cons_ne_nil _ _)
            have hne : x ≠ list := by
              rintro rfl
              exact (List.nodup_cons.mp hl.nodup).1 (by simp [hxs])
            rw [findSafe, if_neg (by simpa using hne), List.find?_cons]
            simp only [Option.bind_eq_bind, Option.bind_some, List.headD_cons, List.tail_cons,
              htest x (by simp [hxs])]
            cases hp : p x with
            | true => simp
            | false =>
                have hrest : xs = (done ++ [x]) ++ rest := by simp [hxs]
                obtain ⟨n, hnext, hn⟩ := getNext_behind (hrest ▸ hl)
                have hfound := ih (done ++ [x]) rest n hrest (Nat.lt_of_succ_lt_succ hlt) hn
                simpa only [Bool.false_eq_true, if_false, hnext, Option.bind_some] using hfound
  have hcut : DlList h list ([] ++ xs) := hl
  obtain ⟨n, hnext, hn⟩ := getNext_behind hcut
  rw [dlListFind, getNext_head hl]
  simpa only [Option.bind_eq_bind, Option.bind_some, hnext] using
    hloop fuel [] xs n rfl hlt hn

end Pantavisor.Utils
