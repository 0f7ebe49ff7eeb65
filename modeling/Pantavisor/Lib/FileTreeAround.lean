/-
Pantavisor.Lib.FileTreeAround — calls that add to a file system at given places.

`Around ps` is what a run of calls does that works at the places `ps` and below
them, and makes directories on the way to them: what is elsewhere stays, and
what is new is at one of the places, below it, or a directory on the way. A
place is `Free` if nothing is there and nothing in the way to it; it stays so
while the calls are at other places (`Around.free`), and a file that is put at a
free place is there afterwards (`Free.link`, `Free.create`).
-/
import Pantavisor.Lib.FileTreeFence

namespace Pantavisor.Lib

namespace Fs

variable {fs fs' : Fs} {p : Path} {ps : List Path}

/-! ## What a place holds -/

theorem held_none_iff : fs.held p = none ↔ fs.root.get p = none := by
  rw [held, Option.map_eq_none_iff]

theorem held_dir_iff : fs.held p = some .dir ↔ fs.DirAt p := by
  rw [held, DirAt]
  cases fs.root.get p with
  | none => simp
  | some t => cases t <;> simp [heldOf]

theorem held_symlink_iff {l : List Name} :
    fs.held p = some (.symlink l) ↔ fs.root.get p = some (.symlink l) := by
  rw [held]
  cases fs.root.get p with
  | none => simp
  | some t => cases t <;> simp [heldOf]

theorem held_file_iff {s : CStr} :
    fs.held p = some (.file s) ↔ ∃ i, fs.root.get p = some (.file i) ∧ fs.data i = s := by
  rw [held]
  cases fs.root.get p with
  | none => simp
  | some t => cases t <;> simp [heldOf]

/-- Files that stay hold the same. -/
theorem Extends.held_file (h : Extends fs fs') {s : CStr} (hs : fs.held p = some (.file s)) :
    fs'.held p = some (.file s) := by
  obtain ⟨i, hi, rfl⟩ := held_file_iff.mp hs
  exact held_file_iff.mpr ⟨i, h.file p i hi⟩

/-- What is held at a plain path can be found. -/
theorem find_held {ns : List Name} {n : Name} {s : CStr} (hns : Plain ns) (hn : Proper n)
    (h : fs.held (clean ns ++ [n]) = some (.file s)) :
    ∃ i, fs.find (ns ++ [n]) = some (.file i) ∧ fs.data i = s := by
  obtain ⟨i, hi, hs⟩ := held_file_iff.mp h
  obtain ⟨es, hes, -⟩ := Tree.dir_of_get_snoc hi
  refine ⟨i, ?_, hs⟩
  rw [find_entry hns hn ⟨es, hes⟩ (by simp [hi]), hi]

/-- It can be read. -/
theorem readFile_held {ns : List Name} {n : Name} {s : CStr} (hns : Plain ns) (hn : Proper n)
    (h : fs.held (clean ns ++ [n]) = some (.file s)) : fs.readFile (ns ++ [n]) = some s := by
  obtain ⟨i, hi, rfl⟩ := find_held hns hn h
  rw [readFile, hi]

/-! ## Adding at places -/

/-- What is new is at the places, below them, or a directory on the way to them, and
only what is at them or below is lost. -/
structure Around (ps : List Path) (fs fs' : Fs) : Prop where
  kept : ∀ q h, (∀ p ∈ ps, ¬ p <+: q) → fs.held q = some h → fs'.held q = some h
  new : ∀ q h, fs'.held q = some h →
    fs.held q = some h ∨ (∃ p ∈ ps, p <+: q) ∨ h = .dir ∧ ∃ p ∈ ps, q <+: p
  links : ∀ q l, fs'.held q = some (.symlink l) → fs.held q = some (.symlink l)

theorem Around.refl (ps : List Path) (fs : Fs) : Around ps fs fs :=
  ⟨fun _ _ _ h => h, fun _ _ h => .inl h, fun _ _ h => h⟩

theorem Around.trans {a b c : Fs} (h : Around ps a b) (h' : Around ps b c) : Around ps a c where
  kept q t hq ht := h'.kept q t hq (h.kept q t hq ht)
  new q t ht := (h'.new q t ht).elim (h.new q t) .inr
  links q l hl := h.links q l (h'.links q l hl)

/-- The same around places above. -/
theorem Around.above {ps' : List Path} (h : Around ps fs fs')
    (hps : ∀ p ∈ ps, ∃ p' ∈ ps', p' <+: p) : Around ps' fs fs' where
  kept q t hq ht := by
    refine h.kept q t (fun p hp hle => ?_) ht
    obtain ⟨p', hp', hle'⟩ := hps p hp
    exact hq p' hp' (hle'.trans hle)
  new q t ht := by
    rcases h.new q t ht with hold | ⟨p, hp, hle⟩ | ⟨rfl, p, hp, hle⟩
    · exact .inl hold
    · obtain ⟨p', hp', hle'⟩ := hps p hp
      exact .inr (.inl ⟨p', hp', hle'.trans hle⟩)
    · obtain ⟨p', hp', hle'⟩ := hps p hp
      rcases List.prefix_or_prefix_of_prefix hle hle' with hq | hq
      · exact .inr (.inr ⟨rfl, p', hp', hq⟩)
      · exact .inr (.inl ⟨p', hp', hq⟩)
  links := h.links

theorem Around.more {ps' : List Path} (h : Around ps fs fs') (hps : ∀ p ∈ ps, p ∈ ps') :
    Around ps' fs fs' :=
  h.above fun p hp => ⟨p, hps p hp, List.prefix_refl p⟩

theorem Around.dir (h : Around ps fs fs') {q : Path} (hq : ∀ p ∈ ps, ¬ p <+: q)
    (hd : fs.DirAt q) : fs'.DirAt q :=
  held_dir_iff.mp (h.kept q .dir hq (held_dir_iff.mpr hd))

/-! ## Free places -/

/-- Nothing is at a place, and nothing is in the way to it. -/
structure Free (fs : Fs) (p : Path) : Prop where
  clear : fs.Clear p
  none : fs.root.get p = none

theorem Around.free (h : Around ps fs fs') (hp : fs.Free p) (hps : ∀ q ∈ ps, Beside p q) :
    fs'.Free p := by
  have hnew : ∀ {q t}, q <+: p → fs'.held q = some t → fs.held q = some t ∨
      t = .dir ∧ ∃ r ∈ ps, q <+: r := by
    intro q t hq ht
    rcases h.new q t ht with hold | ⟨r, hr, hle⟩ | hdir
    · exact .inl hold
    · exact absurd (hle.trans hq) (hps r hr).2
    · exact .inr hdir
  refine ⟨fun q hq => ?_, ?_⟩
  · cases ht : fs'.held q with
    | none => exact .inl (held_none_iff.mp ht)
    | some t =>
        refine .inr (held_dir_iff.mp ?_)
        rcases hnew hq ht with hold | ⟨rfl, -⟩
        · rcases hp.clear q hq with hnone | hdir
          · rw [held_none_iff.mpr hnone] at hold
            cases hold
          · rw [ht, ← hold]
            exact held_dir_iff.mpr hdir
        · exact ht
  · refine held_none_iff.mp ?_
    cases ht : fs'.held p with
    | none => rfl
    | some t =>
        rcases hnew (List.prefix_refl p) ht with hold | ⟨-, r, hr, hle⟩
        · rw [held_none_iff.mpr hp.none] at hold
          cases hold
        · exact absurd hle (hps r hr).1

/-! ## The calls -/

/-- Directories on the way to a place. -/
theorem Grows.around {d : Path} (h : Grows d fs fs') (hd : d <+: p) : Around [p] fs fs' := by
  have hcases : ∀ q, fs'.held q = fs.held q ∨
      q <+: d ∧ fs.held q = none ∧ fs'.held q = some .dir := by
    intro q
    by_cases heq : fs'.held q = fs.held q
    · exact .inl heq
    · exact .inr (h.changed heq)
  refine ⟨fun q t _ ht => ?_, fun q t ht => ?_, fun q l hl => ?_⟩
  · rcases hcases q with heq | ⟨-, hnone, -⟩
    · rw [heq, ht]
    · rw [hnone] at ht
      cases ht
  · rcases hcases q with heq | ⟨hle, -, hdir⟩
    · exact .inl (heq ▸ ht)
    · exact .inr (.inr ⟨Option.some.inj (ht.symm.trans hdir), p, List.mem_singleton_self p,
        hle.trans hd⟩)
  · rcases hcases q with heq | ⟨-, -, hdir⟩
    · rw [← heq, hl]
    · rw [hdir] at hl
      cases hl

/-- A change of one place, by which nothing is lost elsewhere and no link comes. -/
theorem around_of_off {d : Path} {n : Name}
    (hoff : ∀ q, ¬ d ++ [n] <+: q → fs'.held q = fs.held q)
    (hlink : ∀ q l, d ++ [n] <+: q → fs'.held q ≠ some (.symlink l)) :
    Around [d ++ [n]] fs fs' := by
  refine ⟨fun q t hq ht => ?_, fun q t ht => ?_, fun q l hl => ?_⟩
  · rw [hoff q (hq _ (List.mem_singleton_self _)), ht]
  · by_cases hq : d ++ [n] <+: q
    · exact .inr (.inl ⟨_, List.mem_singleton_self _, hq⟩)
    · exact .inl (hoff q hq ▸ ht)
  · by_cases hq : d ++ [n] <+: q
    · exact absurd hl (hlink q l hq)
    · rw [← hoff q hq, hl]

/-- A place that is set to a file, or to nothing. -/
theorem around_setRoot {d : Path} {n : Name} (hd : fs.DirAt d) {u : Option Tree}
    (hu : ∀ t, u = some t → ∃ i, t = .file i) :
    Around [d ++ [n]] fs (fs.setRoot (d ++ [n]) u) := by
  obtain ⟨es, hes⟩ := hd
  refine around_of_off (fun q hq => held_setRoot_off ⟨es, hes⟩ hq u) fun q l hq hl => ?_
  obtain ⟨r, rfl⟩ := hq
  have hget := held_symlink_iff.mp hl
  rw [root_setRoot, Tree.get_append, Tree.get_set_self hes n u] at hget
  obtain ⟨t, rfl, hr⟩ := Option.bind_eq_some_iff.mp hget
  obtain ⟨i, rfl⟩ := hu t rfl
  cases r <;> cases hr

/-- A file that is created. -/
theorem around_create {d : Path} {n : Name} (hd : fs.DirAt d) (s : CStr) :
    Around [d ++ [n]] fs (fs.create (d ++ [n]) s) := by
  refine around_of_off (fun q hq => held_create_off hd hq s) fun q l hq hl => ?_
  obtain ⟨r, rfl⟩ := hq
  have hget := held_symlink_iff.mp hl
  rw [Tree.get_append, (get_create n hd s).1, Option.bind_some] at hget
  cases r <;> cases hget

/-- `remove` of a plain path without links. -/
theorem around_remove {ns : List Name} (hns : Plain ns) (hlink : fs.NoLink (clean ns)) :
    Around [clean ns] fs ((fs.remove ns).getD fs) := by
  cases hr : fs.remove ns with
  | none => exact Around.refl _ fs
  | some fs₁ =>
      unfold remove at hr
      split at hr
      · cases hr
      · rename_i d n hentry
        obtain ⟨hdn, hd⟩ := entry_some hns hlink hentry
        have hset : Around [clean ns] fs (fs.setRoot (d ++ [n]) none) := by
          rw [← hdn]
          exact around_setRoot hd fun t ht => by cases ht
        split at hr
        · cases hr
        · exact Option.some.inj hr ▸ hset
        · cases hr
        · split at hr
          · cases hr
          · exact Option.some.inj hr ▸ hset

/-- `link` to a plain path without links. -/
theorem around_link {old new : List Name} (hnew : Plain new) (hlink : fs.NoLink (clean new))
    (h : fs.link old new = .ok fs') : Around [clean new] fs fs' := by
  unfold link at h
  split at h
  · rename_i i d n _ hentry
    obtain ⟨hdn, hd⟩ := entry_some hnew hlink hentry
    split at h
    · cases h
    · split at h
      · cases h
      · rw [← Except.ok.inj h, ← hdn]
        exact around_setRoot hd fun t ht => ⟨i, (Option.some.inj ht).symm⟩
  · cases h

/-- `link` of a file to a name that is not there. -/
theorem link_new {old ns : List Name} {n : Name} {i : Nat} (hold : fs.find old = some (.file i))
    (hns : Plain ns) (hn : Proper n) (hd : fs.DirAt (clean ns))
    (hnone : fs.root.get (clean ns ++ [n]) = none) :
    fs.link old (ns ++ [n]) = .ok (fs.setRoot (clean ns ++ [n]) (some (.file i))) := by
  have hlast : (ns ++ [n]).getLast? ≠ some [] := by
    rw [List.getLast?_concat]
    simpa using hn.1
  rw [link, hold, entry_proper hns hn hd]
  simp [hnone, hn.1]

/-- `rename` of a file to a name that is not there, in one directory. -/
theorem rename_new {ns : List Name} {n m : Name} {i : Nat} (hns : Plain ns) (hn : Proper n)
    (hm : Proper m) (hfile : fs.root.get (clean ns ++ [n]) = some (.file i))
    (hnone : fs.root.get (clean ns ++ [m]) = none) :
    fs.rename (ns ++ [n]) (ns ++ [m])
      = some ((fs.setRoot (clean ns ++ [m]) (some (.file i))).setRoot (clean ns ++ [n]) none) := by
  obtain ⟨es, hes, -⟩ := Tree.dir_of_get_snoc hfile
  rw [rename, entry_proper hns hn ⟨es, hes⟩, entry_proper hns hm ⟨es, hes⟩]
  simp [hfile, hnone]

end Fs

end Pantavisor.Lib
