/-
Pantavisor.Lib.Sweep — nested loops over levels and a list.

A program that keeps its elements in one list, each with a level, goes through
them level by level: an outer loop over the levels, an inner one over the whole
list that skips what is of another level. The body may change the element it is
at and something outside of the list, and may end both loops.

`sweep_spec` says that this is one pass over the elements in the order of their
levels. Elements are told apart by their place, so the order is one of pairs: each
element with what becomes of it.
-/
import Mathlib.Data.List.Forall2
import Mathlib.Data.List.Nodup
import Mathlib.Data.List.Perm.Basic

namespace Pantavisor.Lib

variable {α β ω : Type}

/-! ## The order of the levels -/

/-- The elements by level: those of the first level in the order of the list, then
those of the next. -/
def byLevel (levels : List Int) (level : α → Int) (xs : List α) : List α :=
  levels.flatMap fun i => xs.filter fun x => level x = i

@[simp] theorem byLevel_nil (level : α → Int) (xs : List α) : byLevel [] level xs = [] := rfl

@[simp] theorem byLevel_cons (i : Int) (is : List Int) (level : α → Int) (xs : List α) :
    byLevel (i :: is) level xs = xs.filter (fun x => level x = i) ++ byLevel is level xs := rfl

@[simp] theorem mem_byLevel {levels : List Int} {level : α → Int} {xs : List α} {x : α} :
    x ∈ byLevel levels level xs ↔ level x ∈ levels ∧ x ∈ xs := by
  simp only [byLevel, List.mem_flatMap, List.mem_filter, decide_eq_true_eq]
  constructor
  · rintro ⟨i, hi, hx, rfl⟩
    exact ⟨hi, hx⟩
  · exact fun h => ⟨level x, h.1, h.2, rfl⟩

/-- The levels of the order are in the order of the levels. -/
theorem pairwise_byLevel {R : Int → Int → Prop} (hrefl : ∀ i, R i i) {levels : List Int}
    (h : levels.Pairwise R) (level : α → Int) (xs : List α) :
    (byLevel levels level xs).Pairwise fun x y => R (level x) (level y) := by
  induction levels with
  | nil => exact List.Pairwise.nil
  | cons i is ih =>
    rw [List.pairwise_cons] at h
    rw [byLevel_cons, List.pairwise_append]
    refine ⟨?_, ih h.2, fun x hx y hy => ?_⟩
    · rw [List.pairwise_iff_forall_sublist]
      intro x y hsub
      have hx := List.mem_filter.mp (hsub.subset (List.mem_cons_self ..))
      have hy := List.mem_filter.mp (hsub.subset (List.mem_cons_of_mem _ (List.mem_cons_self ..)))
      rw [of_decide_eq_true hx.2, of_decide_eq_true hy.2]
      exact hrefl i
    · rw [of_decide_eq_true (List.mem_filter.mp hx).2]
      exact h.1 _ (mem_byLevel.mp hy).1

/-- Within a level the order is the one of the list. -/
theorem filter_byLevel {levels : List Int} (hnodup : levels.Nodup) (level : α → Int) (xs : List α)
    {i : Int} (hi : i ∈ levels) :
    (byLevel levels level xs).filter (fun x => level x = i) = xs.filter fun x => level x = i := by
  have hnone : ∀ is : List Int, i ∉ is →
      (byLevel is level xs).filter (fun x => level x = i) = [] := by
    intro is his
    rw [List.filter_eq_nil_iff]
    intro x hx hlevel
    exact his (of_decide_eq_true hlevel ▸ (mem_byLevel.mp hx).1)
  induction levels with
  | nil => cases hi
  | cons j is ih =>
    rw [List.nodup_cons] at hnodup
    rw [byLevel_cons, List.filter_append]
    by_cases hji : j = i
    · subst hji
      rw [hnone is hnodup.1, List.append_nil, List.filter_filter]
      simp
    · have hother : (xs.filter fun x => level x = j).filter (fun x => level x = i) = [] := by
        rw [List.filter_eq_nil_iff]
        intro x hx hlevel
        exact hji ((of_decide_eq_true (List.mem_filter.mp hx).2).symm.trans
          (of_decide_eq_true hlevel))
      rw [hother, List.nil_append]
      exact ih hnodup.2 ((List.mem_cons.mp hi).resolve_left fun h => hji h.symm)

/-- Every element of one of the levels is in the order, as often as in the list. -/
theorem byLevel_perm {levels : List Int} (hnodup : levels.Nodup) (level : α → Int) (xs : List α) :
    (byLevel levels level xs).Perm (xs.filter fun x => level x ∈ levels) := by
  induction levels with
  | nil => simp
  | cons i is ih =>
    rw [List.nodup_cons] at hnodup
    rw [byLevel_cons]
    have hsplit := List.filter_append_perm (fun x => decide (level x = i))
      (xs.filter fun x => level x ∈ i :: is)
    refine ((List.Perm.append (List.Perm.of_eq ?_) ((ih hnodup.2).trans (List.Perm.of_eq ?_)))).trans
      hsplit
    · rw [List.filter_filter]
      refine List.filter_congr fun x _ => ?_
      by_cases hx : level x = i <;> simp [hx]
    · rw [List.filter_filter]
      refine List.filter_congr fun x _ => ?_
      by_cases hx : level x = i
      · simp [hx, hnodup.1]
      · simp [hx]

theorem byLevel_map {β : Type} (levels : List Int) (level : α → Int) (f : β → α) (ys : List β) :
    byLevel levels level (ys.map f) = (byLevel levels (fun y => level (f y)) ys).map f := by
  rw [byLevel, byLevel, List.map_flatMap]
  exact List.flatMap_congr fun i _ => List.filter_map

/-! ## The loops -/

/-- The inner loop: `act` is made at the elements that are not skipped, until one
says that it is the last. -/
def pass (skip : α → Bool) (act : ω → α → α × ω × Bool) : List α → ω → List α × ω × Bool
  | [], w => ([], w, true)
  | x :: xs, w =>
    if skip x then
      let r := pass skip act xs w
      (x :: r.1, r.2)
    else
      let r := act w x
      if r.2.2 then
        let r' := pass skip act xs r.2.1
        (r.1 :: r'.1, r'.2)
      else (r.1 :: xs, r.2)

/-- The outer loop. -/
def sweep (skip : Int → α → Bool) (act : ω → α → α × ω × Bool) :
    List Int → List α → ω → List α × ω × Bool
  | [], xs, w => (xs, w, true)
  | i :: is, xs, w =>
    let r := pass (skip i) act xs w
    if r.2.2 then sweep skip act is r.1 r.2.1 else r

/-- A loop that skips nothing. -/
abbrev passAll (act : ω → α → α × ω × Bool) : List α → ω → List α × ω × Bool :=
  pass (fun _ => false) act

variable {skip : α → Bool} {act : ω → α → α × ω × Bool}

@[simp] theorem pass_nil (w : ω) : pass skip act [] w = ([], w, true) := rfl

theorem passAll_cons (x : α) (xs : List α) (w : ω) :
    passAll act (x :: xs) w =
      if (act w x).2.2 then
        ((act w x).1 :: (passAll act xs (act w x).2.1).1, (passAll act xs (act w x).2.1).2)
      else ((act w x).1 :: xs, (act w x).2) := rfl

theorem length_pass (xs : List α) (w : ω) : (pass skip act xs w).1.length = xs.length := by
  induction xs generalizing w with
  | nil => rfl
  | cons x xs ih =>
    rw [pass]
    dsimp only
    split
    · simp [ih]
    · split
      · simp [ih]
      · rfl

theorem snd_of_mem_zip_self {xs : List α} {z : α × α} (hz : z ∈ xs.zip xs) : z.2 = z.1 := by
  rw [List.zip_eq_zipWith, List.zipWith_self] at hz
  obtain ⟨x, -, rfl⟩ := List.mem_map.mp hz
  rfl

/-- A pass that comes through goes on with what is behind. -/
theorem passAll_append (xs ys : List α) (w : ω) :
    passAll act (xs ++ ys) w =
      if (passAll act xs w).2.2 then
        ((passAll act xs w).1 ++ (passAll act ys (passAll act xs w).2.1).1,
          (passAll act ys (passAll act xs w).2.1).2)
      else ((passAll act xs w).1 ++ ys, (passAll act xs w).2) := by
  induction xs generalizing w with
  | nil => rfl
  | cons x xs ih =>
    rw [List.cons_append, passAll_cons, passAll_cons]
    by_cases hok : (act w x).2.2 = true
    · rw [if_pos hok, if_pos hok, ih]
      split <;> rfl
    · rw [if_neg hok, if_neg hok, if_neg hok]
      rfl

/-- What becomes of an element: nothing, or what the action makes of it. -/
theorem mem_zip_pass (xs : List α) (w : ω) :
    ∀ z ∈ xs.zip (pass skip act xs w).1, z.2 = z.1 ∨ ∃ w', z.2 = (act w' z.1).1 := by
  induction xs generalizing w with
  | nil => exact fun z hz => by simp at hz
  | cons x xs ih =>
    rw [pass]
    dsimp only
    split
    · rw [List.zip_cons_cons, List.forall_mem_cons]
      exact ⟨.inl rfl, ih w⟩
    · split
      · rw [List.zip_cons_cons, List.forall_mem_cons]
        exact ⟨.inr ⟨w, rfl⟩, ih _⟩
      · rw [List.zip_cons_cons, List.forall_mem_cons]
        exact ⟨.inr ⟨w, rfl⟩, fun z hz => .inl (snd_of_mem_zip_self hz)⟩

/-- A pass whose actions all go on is a map. -/
theorem pass_map {f : α → α} (hskip : ∀ x, skip x → f x = x) {xs : List α}
    (hact : ∀ x ∈ xs, ¬ skip x → ∀ w, (act w x).1 = f x ∧ (act w x).2.2 = true) (w : ω) :
    (pass skip act xs w).1 = xs.map f ∧ (pass skip act xs w).2.2 = true := by
  induction xs generalizing w with
  | nil => exact ⟨rfl, rfl⟩
  | cons x xs ih =>
    rw [List.forall_mem_cons] at hact
    rw [pass, List.map_cons]
    by_cases hx : skip x = true
    · rw [if_pos hx, hskip x hx]
      exact ⟨congrArg _ (ih hact.2 w).1, (ih hact.2 w).2⟩
    · obtain ⟨hf, hok⟩ := hact.1 hx w
      rw [if_neg hx]
      dsimp only
      rw [if_pos hok, hf]
      exact ⟨congrArg _ (ih hact.2 _).1, (ih hact.2 _).2⟩

/-- What is skipped is left as it is, and the rest is one pass. -/
theorem pass_spec (xs : List α) (w : ω) :
    (∀ z ∈ xs.zip (pass skip act xs w).1, skip z.1 → z.2 = z.1) ∧
      let picked := (xs.zip (pass skip act xs w).1).filter fun z => !skip z.1
      passAll act (picked.map Prod.fst) w = (picked.map Prod.snd, (pass skip act xs w).2) := by
  induction xs generalizing w with
  | nil => exact ⟨fun z hz => by simp at hz, rfl⟩
  | cons x xs ih =>
    rw [pass]
    dsimp only
    by_cases hskip : skip x = true
    · rw [if_pos hskip]
      obtain ⟨hsame, hpass⟩ := ih w
      refine ⟨?_, ?_⟩
      · rw [List.zip_cons_cons, List.forall_mem_cons]
        exact ⟨fun _ => rfl, hsame⟩
      · rw [List.zip_cons_cons, List.filter_cons_of_neg (by simp [hskip])]
        exact hpass
    · rw [if_neg hskip]
      by_cases hok : (act w x).2.2 = true
      · rw [if_pos hok]
        obtain ⟨hsame, hpass⟩ := ih (act w x).2.1
        refine ⟨?_, ?_⟩
        · rw [List.zip_cons_cons, List.forall_mem_cons]
          exact ⟨fun h => absurd h hskip, hsame⟩
        · rw [List.zip_cons_cons, List.filter_cons_of_pos (by simp [hskip]), List.map_cons,
            passAll_cons, if_pos hok, hpass]
          rfl
      · rw [if_neg hok]
        refine ⟨?_, ?_⟩
        · rw [List.zip_cons_cons, List.forall_mem_cons]
          exact ⟨fun h => absurd h hskip, fun z hz _ => snd_of_mem_zip_self hz⟩
        · rw [List.zip_cons_cons, List.filter_cons_of_pos (by simp [hskip]), List.map_cons,
            passAll_cons, if_neg hok, List.map_cons]
          have hrest : ((xs.zip xs).filter fun z => !skip z.1).map Prod.fst
              = ((xs.zip xs).filter fun z => !skip z.1).map Prod.snd :=
            List.map_congr_left fun z hz => (snd_of_mem_zip_self (List.mem_filter.mp hz).1).symm
          rw [hrest]

/-! ## The sweep -/

/-- A list, what one pass makes of it, and what another makes of that. -/
theorem zip_zip {xs ys zs : List α} (hxy : ys.length = xs.length) (hyz : zs.length = ys.length) :
    (xs.zip (ys.zip zs)).map (fun t => (t.1, t.2.1)) = xs.zip ys ∧
      (xs.zip (ys.zip zs)).map (fun t => (t.1, t.2.2)) = xs.zip zs ∧
      (xs.zip (ys.zip zs)).map Prod.snd = ys.zip zs := by
  induction xs generalizing ys zs with
  | nil =>
    obtain rfl := List.length_eq_zero_iff.mp hxy
    simp
  | cons x xs ih =>
    obtain ⟨y, ys, rfl⟩ := List.exists_cons_of_length_eq_add_one hxy
    obtain ⟨z, zs, rfl⟩ := List.exists_cons_of_length_eq_add_one (hyz.trans List.length_cons)
    obtain ⟨h₁, h₂, h₃⟩ := @ih ys zs (by simpa using hxy) (by simpa using hyz)
    simp [h₁, h₂, h₃]

/-- The elements that a sweep gets to, each with what becomes of it, in the order of
their levels. -/
def swept (levels : List Int) (level : α → Int) (picks : α → Bool) (xs xs' : List α) :
    List (α × α) :=
  byLevel levels (fun z => level z.1) ((xs.zip xs').filter fun z => picks z.1)

theorem map_fst_swept (levels : List Int) (level : α → Int) (picks : α → Bool) {xs xs' : List α}
    (h : xs'.length = xs.length) :
    (swept levels level picks xs xs').map Prod.fst = byLevel levels level (xs.filter picks) := by
  have hfst : (xs.zip xs').map Prod.fst = xs := List.map_fst_zip (Nat.le_of_eq h.symm)
  rw [swept, ← byLevel_map levels level Prod.fst]
  congr 1
  calc (((xs.zip xs').filter fun z => picks z.1).map Prod.fst)
      = ((xs.zip xs').map Prod.fst).filter picks := List.filter_map.symm
    _ = xs.filter picks := by rw [hfst]

section Levels

variable {xs ys zs : List α} {level : α → Int} {picks : α → Bool} {i : Int} {is : List Int}

/-- An element of a level that is not swept again keeps what the first pass made of it. -/
theorem swept_first (hxy : ys.length = xs.length) (hyz : zs.length = ys.length) (hi : i ∉ is)
    (hlevel : ∀ z ∈ xs.zip ys, level z.2 = level z.1)
    (hrest : ∀ z ∈ ys.zip zs, ¬ (level z.1 ∈ is ∧ picks z.1) → z.2 = z.1) :
    ((xs.zip zs).filter fun z => picks z.1).filter (fun z => level z.1 = i)
      = ((xs.zip ys).filter fun z => picks z.1).filter fun z => level z.1 = i := by
  obtain ⟨h₁, h₂, h₃⟩ := zip_zip hxy hyz
  rw [← h₁, List.forall_mem_map] at hlevel
  rw [← h₃, List.forall_mem_map] at hrest
  rw [← h₁, ← h₂, List.filter_filter, List.filter_filter, List.filter_map, List.filter_map]
  refine List.map_congr_left fun t ht => ?_
  obtain ⟨ht, hat⟩ := List.mem_filter.mp ht
  have hlev : level t.1 = i := of_decide_eq_true (Bool.and_eq_true _ _ ▸ hat).1
  have hlev' := hlevel t ht
  dsimp only at hlev' ⊢
  rw [hrest t ht fun h => hi (by rw [← hlev, ← hlev']; exact h.1)]

/-- An element of a level that is swept later is still what it was before the first pass. -/
theorem swept_later (hxy : ys.length = xs.length) (hyz : zs.length = ys.length) (hi : i ∉ is)
    (hlevel : ∀ z ∈ xs.zip ys, level z.2 = level z.1)
    (hsame : ∀ z ∈ xs.zip ys, ¬ (level z.1 = i ∧ picks z.1) → z.2 = z.1) :
    byLevel is (fun z : α × α => level z.1) ((xs.zip zs).filter fun z => picks z.1)
      = byLevel is (fun z : α × α => level z.1) ((ys.zip zs).filter fun z => picks z.1) := by
  obtain ⟨h₁, h₂, h₃⟩ := zip_zip hxy hyz
  generalize xs.zip (ys.zip zs) = T at h₁ h₂ h₃
  rw [← h₁, List.forall_mem_map] at hlevel hsame
  unfold byLevel
  refine List.flatMap_congr fun j hj => ?_
  rw [← h₂, ← h₃, List.filter_filter, List.filter_filter, List.filter_map, List.filter_map]
  have hunchanged : ∀ t ∈ T, level t.1 = j → t.2.1 = t.1 := fun t ht hlev =>
    hsame t ht fun h => hi (by rw [← h.1, hlev]; exact hj)
  have hpred : ∀ t ∈ T, (decide (level t.1 = j) && picks t.1)
      = (decide (level t.2.1 = j) && picks t.2.1) := by
    intro t ht
    have hlev := hlevel t ht
    dsimp only at hlev
    by_cases hj' : level t.1 = j
    · rw [hunchanged t ht hj']
    · rw [hlev, decide_eq_false hj', Bool.false_and, Bool.false_and]
  rw [show T.filter ((fun z : α × α => decide (level z.1 = j) && picks z.1) ∘
      fun t => (t.1, t.2.2)) = T.filter ((fun z : α × α => decide (level z.1 = j) &&
      picks z.1) ∘ Prod.snd) from List.filter_congr hpred]
  refine List.map_congr_left fun t ht => ?_
  obtain ⟨ht, hat⟩ := List.mem_filter.mp ht
  have hlev : level t.2.1 = j := of_decide_eq_true (Bool.and_eq_true _ _ ▸ hat).1
  have hlev' := hlevel t ht
  dsimp only at hlev'
  rw [← hunchanged t ht (hlev'.symm.trans hlev)]

end Levels

/-- **A sweep is one pass** over the elements that it does not skip, in the order of
their levels. All others are left as they are. -/
theorem sweep_spec {level : α → Int} (picks : α → Bool)
    (hlevel : ∀ w x, level (act w x).1 = level x) {levels : List Int} (hnodup : levels.Nodup)
    (xs : List α) (w : ω) :
    let r := sweep (fun i x => !(decide (level x = i) && picks x)) act levels xs w
    r.1.length = xs.length ∧
      (∀ z ∈ xs.zip r.1, level z.2 = level z.1 ∧
        (¬ (level z.1 ∈ levels ∧ picks z.1) → z.2 = z.1)) ∧
      passAll act ((swept levels level picks xs r.1).map Prod.fst) w
        = ((swept levels level picks xs r.1).map Prod.snd, r.2) := by
  induction levels generalizing xs w with
  | nil => exact ⟨rfl, fun z hz => by simp [snd_of_mem_zip_self hz], rfl⟩
  | cons i is ih =>
    rw [List.nodup_cons] at hnodup
    dsimp only
    rw [sweep]
    generalize hskip : (fun x => !(decide (level x = i) && picks x)) = skip
    have hlen : (pass skip act xs w).1.length = xs.length := length_pass xs w
    have hkept := @mem_zip_pass _ _ skip act xs w
    obtain ⟨hsame, hpass⟩ := @pass_spec _ _ skip act xs w
    generalize pass skip act xs w = r₁ at hlen hkept hsame hpass ⊢
    have hlevel₁ : ∀ z ∈ xs.zip r₁.1, level z.2 = level z.1 := by
      intro z hz
      rcases hkept z hz with h | ⟨w', h⟩
      · rw [h]
      · rw [h, hlevel]
    have hsame₁ : ∀ z ∈ xs.zip r₁.1, ¬ (level z.1 = i ∧ picks z.1) → z.2 = z.1 := by
      intro z hz hnot
      refine hsame z hz ?_
      rw [← hskip]
      simpa [imp_iff_not_or] using hnot
    have hpicked : ∀ zs : List (α × α), (zs.filter fun z => !skip z.1)
        = (zs.filter fun z => picks z.1).filter fun z => level z.1 = i := by
      intro zs
      rw [List.filter_filter, ← hskip]
      simp
    rw [hpicked] at hpass
    by_cases hok : r₁.2.2 = true
    · rw [if_pos hok]
      obtain ⟨hlen₂, hrest, hpass₂⟩ := ih hnodup.2 r₁.1 r₁.2.1
      generalize sweep _ act is r₁.1 r₁.2.1 = r at hlen₂ hrest hpass₂ ⊢
      -- the element of a level is changed at that level only
      have hfirst := swept_first hlen hlen₂ hnodup.1 hlevel₁ fun z hz => (hrest z hz).2
      have hlater := swept_later hlen hlen₂ hnodup.1 hlevel₁ hsame₁
      refine ⟨hlen₂.trans hlen, ?_, ?_⟩
      · obtain ⟨h₁, h₂, h₃⟩ := zip_zip hlen hlen₂
        rw [← h₁, List.forall_mem_map] at hlevel₁ hsame₁
        rw [← h₃, List.forall_mem_map] at hrest
        rw [← h₂, List.forall_mem_map]
        intro t ht
        have hlev := hlevel₁ t ht
        have hrest := hrest t ht
        dsimp only at hlev ⊢
        refine ⟨hrest.1.trans hlev, fun hnot => ?_⟩
        have hstay := hsame₁ t ht fun h => hnot ⟨by rw [h.1]; exact List.mem_cons_self .., h.2⟩
        dsimp only at hstay
        rw [hrest.2, hstay]
        rw [hstay]
        exact fun h => hnot ⟨List.mem_cons_of_mem _ h.1, h.2⟩
      · rw [swept, byLevel_cons, hfirst, hlater, List.map_append, List.map_append, passAll_append,
          hpass, if_pos hok]
        rw [swept] at hpass₂
        rw [hpass₂]
    · rw [if_neg hok]
      refine ⟨hlen, fun z hz => ⟨hlevel₁ z hz, fun hnot => ?_⟩, ?_⟩
      · exact hsame₁ z hz fun h => hnot ⟨by rw [h.1]; exact List.mem_cons_self .., h.2⟩
      · rw [swept, byLevel_cons, List.map_append, List.map_append, passAll_append, hpass,
          if_neg hok]
        have hrest : (byLevel is (fun z : α × α => level z.1)
              ((xs.zip r₁.1).filter fun z => picks z.1)).map Prod.fst
            = (byLevel is (fun z : α × α => level z.1)
              ((xs.zip r₁.1).filter fun z => picks z.1)).map Prod.snd := by
          refine List.map_congr_left fun z hz => ?_
          obtain ⟨hlev, hz⟩ := mem_byLevel.mp hz
          exact (hsame₁ z (List.mem_filter.mp hz).1 fun h =>
            hnodup.1 (by rw [← h.1]; exact hlev)).symm
        rw [hrest]

/-! ## A sweep that ends early -/

theorem nodup_zip {xs xs' : List α} (h : xs'.length = xs.length) (hnodup : xs.Nodup) :
    (xs.zip xs').Nodup := by
  have hfst : (xs.zip xs').map Prod.fst = xs := List.map_fst_zip (Nat.le_of_eq h.symm)
  exact List.Nodup.of_map Prod.fst (hfst.symm ▸ hnodup)

/-- If only the first `n` elements in the order were changed, then the list is what became
of these and, as it was, the rest. -/
theorem swept_take [DecidableEq α] {levels : List Int} {level : α → Int} {picks : α → Bool}
    {xs xs' ys : List α} {n : Nat} (hlevels : levels.Nodup) (hnodup : xs.Nodup)
    (hlength : xs'.length = xs.length)
    (hothers : ∀ z ∈ xs.zip xs', ¬ (level z.1 ∈ levels ∧ picks z.1) → z.2 = z.1)
    (hys : (swept levels level picks xs xs').map Prod.snd
      = ys ++ ((swept levels level picks xs xs').map Prod.fst).drop n)
    (hn : ys.length = n) :
    let first := (byLevel levels level (xs.filter picks)).take n
    (∀ z ∈ xs.zip xs', (z.1 ∈ first → z ∈ first.zip ys) ∧ (z.1 ∉ first → z.2 = z.1)) ∧
      xs'.Perm (ys ++ xs.filter (· ∉ first)) := by
  dsimp only
  have hmem : ∀ z, z ∈ swept levels level picks xs xs' ↔
      z ∈ xs.zip xs' ∧ level z.1 ∈ levels ∧ picks z.1 := by
    intro z
    rw [swept, mem_byLevel, List.mem_filter]
    tauto
  have hnodupT : (swept levels level picks xs xs').Nodup :=
    (byLevel_perm hlevels _ _).nodup_iff.mpr (((nodup_zip hlength hnodup).filter _).filter _)
  have hfst := map_fst_swept levels level picks hlength
  have hnodupF : ((swept levels level picks xs xs').map Prod.fst).Nodup := by
    rw [hfst]
    exact (byLevel_perm hlevels _ _).nodup_iff.mpr ((hnodup.filter _).filter _)
  rw [← hfst]
  generalize swept levels level picks xs xs' = T at hys hmem hnodupT hnodupF
  -- the first `n` pairs, and the ones behind
  have hfirst : (T.take n).map Prod.snd = ys := by
    rw [List.map_take, hys, List.take_left' hn]
  have hbehind : ∀ z ∈ T.drop n, z.2 = z.1 := by
    have heq : (T.drop n).map Prod.snd = (T.drop n).map Prod.fst := by
      rw [List.map_drop, hys, List.drop_left' hn, List.map_drop]
    exact fun z hz => List.map_inj_left.mp heq z hz
  have hdisjoint : ∀ z ∈ T.drop n, z.1 ∉ (T.map Prod.fst).take n := by
    intro z hz hin
    rw [← List.take_append_drop n (T.map Prod.fst), List.nodup_append] at hnodupF
    refine hnodupF.2.2 _ hin z.1 ?_ rfl
    rw [← List.map_drop]
    exact List.mem_map_of_mem hz
  have hpairs : ∀ z ∈ xs.zip xs', (z.1 ∈ (T.map Prod.fst).take n → z ∈ T.take n) ∧
      (z.1 ∉ (T.map Prod.fst).take n → z.2 = z.1) := by
    intro z hz
    by_cases hpicked : level z.1 ∈ levels ∧ picks z.1
    · have hzT := (hmem z).mpr ⟨hz, hpicked⟩
      rw [← List.take_append_drop n T] at hzT
      rcases List.mem_append.mp hzT with hzT | hzT
      · refine ⟨fun _ => hzT, fun hnot => absurd ?_ hnot⟩
        rw [← List.map_take]
        exact List.mem_map_of_mem hzT
      · exact ⟨fun hin => absurd hin (hdisjoint z hzT), fun _ => hbehind z hzT⟩
    · refine ⟨fun hin => absurd ?_ hpicked, fun _ => hothers z hz hpicked⟩
      obtain ⟨z', hz', heq⟩ := List.mem_map.mp (List.mem_of_mem_take hin)
      rw [← heq]
      exact ((hmem z').mp hz').2
  refine ⟨fun z hz => ⟨fun hin => ?_, (hpairs z hz).2⟩, ?_⟩
  · have hzT := (hpairs z hz).1 hin
    rw [← List.map_take, ← hfirst, ← List.zip_of_prod rfl rfl]
    exact hzT
  · have hsnd : (xs.zip xs').map Prod.snd = xs' := List.map_snd_zip (Nat.le_of_eq hlength)
    have hfst' : (xs.zip xs').map Prod.fst = xs := List.map_fst_zip (Nat.le_of_eq hlength.symm)
    have htake : ((xs.zip xs').filter fun z => z.1 ∈ (T.map Prod.fst).take n).Perm (T.take n) := by
      refine (List.perm_ext_iff_of_nodup ((nodup_zip hlength hnodup).filter _)
        (hnodupT.sublist (List.take_sublist n T))).mpr fun z => ?_
      rw [List.mem_filter, decide_eq_true_eq]
      refine ⟨fun h => (hpairs z h.1).1 h.2, fun h => ⟨((hmem z).mp (List.mem_of_mem_take h)).1, ?_⟩⟩
      rw [← List.map_take]
      exact List.mem_map_of_mem h
    have hrest : ((xs.zip xs').filter fun z => !decide (z.1 ∈ (T.map Prod.fst).take n)).map Prod.snd
        = xs.filter (· ∉ (T.map Prod.fst).take n) := by
      calc ((xs.zip xs').filter fun z => !decide (z.1 ∈ (T.map Prod.fst).take n)).map Prod.snd
          = ((xs.zip xs').filter
              fun z => !decide (z.1 ∈ (T.map Prod.fst).take n)).map Prod.fst := by
            refine List.map_congr_left fun z hz => ?_
            obtain ⟨hz, hnot⟩ := List.mem_filter.mp hz
            exact (hpairs z hz).2 (by simpa using hnot)
        _ = ((xs.zip xs').map Prod.fst).filter (· ∉ (T.map Prod.fst).take n) := by
            rw [List.filter_map]
            simp only [decide_not]
            rfl
        _ = xs.filter (· ∉ (T.map Prod.fst).take n) := by rw [hfst']
    have hsplit := (List.filter_append_perm (fun z => decide (z.1 ∈ (T.map Prod.fst).take n))
      (xs.zip xs')).symm.map Prod.snd
    rw [hsnd, List.map_append, hrest] at hsplit
    exact hsplit.trans ((hfirst ▸ htake.map Prod.snd).append_right _)

end Pantavisor.Lib
