/-
Pantavisor.Log.Buffers — the two lists of buffers that the logs are read into (`log.c`).

A buffer is in one of the lists, or someone has it and its node is a list of its own. So a
buffer that is put back twice is not added twice: its node is not empty any more. Which list it
goes back to is told by its size, which is compared with what the configuration says by then.

As long as that stays what it was at the start, a client gets a buffer of the size it asked for
that no one else has, if there is one, and the memory is never at fault (`logBuffers_served`).
-/
import Pantavisor.Utils.DlList

namespace Pantavisor.Log

open Pantavisor.Lib Pantavisor.Utils
open Function (update update_self update_of_ne)

/-! ## The code -/

/-- What a node of these lists is: `log_buffer_list`, `log_buffer_list_double`, or a `free_list`
in an allocated buffer. -/
inductive LogNode where
  | head (large : Bool)
  | buffer (a : Nat)
  deriving DecidableEq, Repr

/-- The lists, and the sizes of the buffers. -/
structure LogMem where
  links : DlHeap LogNode
  size : LogNode → Int

def maxBufferCount : Nat := 10

/-- `__pv_log_get_buffer` -/
def pvLogGetBufferFrom (head : LogNode) (m : LogMem) : Option (Option LogNode × LogMem) := do
  if ← dlListEmpty m.links head then return (none, m)
  let logBuffer ← (← dlListFirst m.links head)
  let links ← dlListDel m.links logBuffer
  let links ← dlListInit links logBuffer
  return (some logBuffer, { m with links := links })

/-- `pv_log_get_buffer` -/
def pvLogGetBuffer (large : Bool) (m : LogMem) : Option (Option LogNode × LogMem) :=
  if large then pvLogGetBufferFrom (.head true) m else pvLogGetBufferFrom (.head false) m

/-- `pv_log_put_buffer`, with what `pv_config_get_log_logsize` returns -/
def pvLogPutBuffer (logsize : Int) (logBuffer : Option LogNode) (m : LogMem) : Option LogMem :=
  match logBuffer with
  | none => some m
  | some logBuffer => do
    if !(← dlListEmpty m.links logBuffer) then return m
    let links ←
      if logsize = m.size logBuffer then dlListAdd m.links (.head false) logBuffer
      else dlListAdd m.links (.head true) logBuffer
    return { m with links := links }

/-- What the two calls of `calloc` for a buffer get: the structure, and whether there is memory
for its text. -/
structure Callocs where
  buffer : Option LogNode
  buf : Bool

/-- `pv_log_alloc_buffer`. A structure without its text is freed again. -/
def pvLogAllocBuffer (bufSize : Int) (calls : Callocs) (m : LogMem) : Option LogNode × LogMem :=
  if bufSize ≤ 0 then (none, m)
  else
    match calls.buffer with
    | none => (none, m)
    | some buffer =>
      if calls.buf then
        (some buffer, ⟨m.links.calloc buffer, update m.size buffer bufSize⟩)
      else (none, m)

/-- The second loop of `pv_log_init_buf_cache` -/
def allocLoop (size : Int) (head : LogNode) :
    Nat → List Callocs → Nat → LogMem → Option (Nat × LogMem)
  | 0, _, allocated, m => some (allocated, m)
  | items + 1, calls, allocated, m =>
    if maxBufferCount ≤ allocated then some (allocated, m)
    else
      match pvLogAllocBuffer size (calls.headD ⟨none, false⟩) m with
      | (none, m) => allocLoop size head items calls.tail allocated m
      | (some buffer, m) => do
        let links ← dlListAdd m.links head buffer
        allocLoop size head items calls.tail (allocated + 1) { m with links := links }

/-- The body of the first loop of `pv_log_init_buf_cache` -/
def freeBuffer (item : LogNode) (m : LogMem) : Option LogMem := do
  let links ← dlListDel m.links item
  let links ← links.free item
  return { m with links := links }

/-- `pv_log_init_buf_cache` -/
def pvLogInitBufCache (fuel items : Nat) (size : Int) (head : LogNode) (calls : List Callocs)
    (m : LogMem) : Option (Nat × LogMem) := do
  let m ←
    if !(← dlListEmpty m.links head) then dlListForEachSafe LogMem.links freeBuffer head fuel m
    else some m
  allocLoop size head items calls 0 m

/-- A size whose double is an `int`. -/
def Doubles (logsize : Int) : Prop := -2147483648 ≤ logsize * 2 ∧ logsize * 2 < 2147483648

instance (logsize : Int) : Decidable (Doubles logsize) := inferInstanceAs (Decidable (_ ∧ _))

/-- What `pv_log_init` does with the lists; `none` also for a product that is no `int`. -/
def pvLogInit (fuel : Nat) (logsize : Int) (calls : Bool → List Callocs) (m : LogMem) :
    Option LogMem := do
  let (_, m) ← pvLogInitBufCache fuel maxBufferCount logsize (.head false) (calls false) m
  if ¬ Doubles logsize then none
  let (_, m) ← pvLogInitBufCache fuel maxBufferCount (logsize * 2) (.head true) (calls true) m
  return m

/-! ## Clients -/

/-- A call of a client. -/
inductive BufferCall where
  | get (large : Bool)
  | put (logBuffer : Option LogNode)
  deriving DecidableEq, Repr

/-- A call, and what it returns. -/
def BufferCall.result (logsize : Int) (m : LogMem) : BufferCall → Option (Option LogNode × LogMem)
  | .get large => pvLogGetBuffer large m
  | .put logBuffer => (pvLogPutBuffer logsize logBuffer m).map fun m => (none, m)

/-- Calls one after another, with what the configuration says at each. -/
def runCalls : List (Int × BufferCall) → LogMem → Option (List (Option LogNode) × LogMem)
  | [], m => some ([], m)
  | (logsize, c) :: cs, m => do
    let (out, m) ← c.result logsize m
    let (outs, m) ← runCalls cs m
    return (out :: outs, m)

/-- **Who is served**: a client gets one of the buffers of its size that no one has, and none
only if all of them are taken. -/
def Served (bufs : Bool → List LogNode) :
    List LogNode → List (Int × BufferCall) → List (Option LogNode) → Prop
  | held, (_, .get large) :: cs, some b :: outs =>
    b ∈ bufs large ∧ b ∉ held ∧ Served bufs (b :: held) cs outs
  | held, (_, .get large) :: cs, none :: outs =>
    (∀ b ∈ bufs large, b ∈ held) ∧ Served bufs held cs outs
  | held, (_, .put b) :: cs, _ :: outs => Served bufs (held.filter (some · ≠ b)) cs outs
  | _, _, outs => outs = []

/-! ## Who has the buffers -/

variable {logsize : Int} {bufs free : Bool → List LogNode} {held : List LogNode} {m : LogMem}
  {b : LogNode}

/-- The size that a list is for. -/
def sizeFor (logsize : Int) (large : Bool) : Int := if large then logsize * 2 else logsize

/-- The buffers `bufs` are in the lists or with a client, each once and in the right list. -/
structure Pool (logsize : Int) (bufs : Bool → List LogNode) (m : LogMem)
    (free : Bool → List LogNode) (held : List LogNode) : Prop where
  lists : ∀ large, DlList m.links (.head large) (free large)
  own : ∀ b ∈ held, DlList m.links b []
  apart : ∀ b ∈ held, ∀ large, b ∉ free large
  known : ∀ large, ∀ b ∈ free large, b ∈ bufs large
  heldKnown : ∀ b ∈ held, ∃ large, b ∈ bufs large
  all : ∀ large, ∀ b ∈ bufs large, b ∈ free large ∨ b ∈ held
  buffers : ∀ large, ∀ b ∈ bufs large, ∃ a, b = .buffer a
  sizes : ∀ large, ∀ b ∈ bufs large, m.size b = sizeFor logsize large ∧ 0 < logsize

theorem pvLogGetBuffer_eq (large : Bool) (m : LogMem) :
    pvLogGetBuffer large m = pvLogGetBufferFrom (.head large) m := by
  cases large <;> rfl

/-- No buffer is a head. -/
theorem Pool.head_not_free (h : Pool logsize bufs m free held) (large large' : Bool) :
    LogNode.head large ∉ free large' := fun hmem => by
  obtain ⟨a, ha⟩ := h.buffers large' _ (h.known large' _ hmem)
  cases ha

theorem Pool.head_not_held (h : Pool logsize bufs m free held) (large : Bool) :
    LogNode.head large ∉ held := fun hmem => by
  obtain ⟨large', hknown⟩ := h.heldKnown _ hmem
  obtain ⟨a, ha⟩ := h.buffers large' _ hknown
  cases ha

/-- The two lists have no node in common. -/
theorem Pool.lists_disjoint (h : Pool logsize bufs m free held) {large large' : Bool}
    (hne : large ≠ large') :
    (LogNode.head large :: free large).Disjoint (.head large' :: free large') := by
  refine (h.lists large).disjoint (h.lists large').toRing ?_
  rw [List.mem_cons, not_or]
  exact ⟨fun heq => hne (LogNode.head.inj heq).symm, h.head_not_free large' large⟩

/-- A buffer that someone has is apart from a list. -/
theorem Pool.held_disjoint (h : Pool logsize bufs m free held) (hb : b ∈ held) (large : Bool) :
    [b].Disjoint (.head large :: free large) := by
  intro c hc hmem
  rw [List.mem_singleton] at hc
  subst hc
  rcases List.mem_cons.mp hmem with rfl | hmem
  · exact h.head_not_held large hb
  · exact h.apart c hb large hmem

/-- A buffer of the other size is not in a list. -/
theorem Pool.known_unique (h : Pool logsize bufs m free held) {large large' : Bool}
    (hb : b ∈ bufs large) (hb' : b ∈ bufs large') : large = large' := by
  obtain ⟨hsize, hpos⟩ := h.sizes large b hb
  have hsize' := (h.sizes large' b hb').1
  rw [hsize, sizeFor, sizeFor] at hsize'
  cases large <;> cases large' <;> first | rfl | (simp at hsize'; omega)

/-! ## The calls -/

/-- From an empty list no one gets a buffer. -/
theorem Pool.get_none (h : Pool logsize bufs m free held) {large : Bool}
    (hfree : free large = []) : pvLogGetBuffer large m = some (none, m) := by
  rw [pvLogGetBuffer_eq, pvLogGetBufferFrom, dlListEmpty_eq (h.lists large), hfree]
  rfl

/-- The first buffer of a list goes to the client. -/
theorem Pool.get_some (h : Pool logsize bufs m free held) {large : Bool} {bs : List LogNode}
    (hfree : free large = b :: bs) : ∃ m', pvLogGetBuffer large m = some (some b, m') ∧
      Pool logsize bufs m' (update free large bs) (b :: held) := by
  have hlist := h.lists large
  rw [hfree] at hlist
  have hcut : DlList m.links (.head large) ([] ++ b :: bs) := hlist
  obtain ⟨links₁, hdel, hlist₁, hsame₁, hlive⟩ := dlListDel_spec hcut
  have hb : links₁.live b = true := by
    rw [hlive]
    exact hlist.live b (by simp)
  obtain ⟨links₂, hinit, hown, hsame₂⟩ := dlListInit_spec hb
  have hget : pvLogGetBuffer large m = some (some b, { m with links := links₂ }) := by
    rw [pvLogGetBuffer_eq, pvLogGetBufferFrom, dlListEmpty_eq hlist, dlListFirst_eq hlist]
    simp [hdel, hinit]
  have hmem : b ∈ free large := by simp [hfree]
  have hhead : ∀ large', b ≠ .head large' := fun large' heq =>
    h.head_not_free large' large (heq ▸ hmem)
  -- all that is written is in the list that the buffer comes from
  have hsame : SameOff (.head large :: free large) m.links links₂ := by
    rw [hfree]
    exact hsame₁.trans (hsame₂.mono (by simp))
  refine ⟨_, hget, ?_, ?_, ?_, ?_, ?_, ?_, h.buffers, h.sizes⟩
  · intro large'
    by_cases heq : large' = large
    · subst heq
      rw [update_self]
      refine hlist₁.frame hsame₂ ?_
      have hout := (List.nodup_cons.mp (List.nodup_cons.mp hlist.nodup).2).1
      simpa using ⟨hhead _, hout⟩
    · rw [update_of_ne heq]
      exact (h.lists large').frame hsame (h.lists_disjoint heq)
  · intro c hc
    rcases List.mem_cons.mp hc with rfl | hc
    · exact hown
    · exact (h.own c hc).frame hsame (h.held_disjoint hc large)
  · intro c hc large'
    by_cases heq : large' = large
    · subst heq
      rw [update_self]
      rcases List.mem_cons.mp hc with rfl | hc
      · exact (List.nodup_cons.mp (List.nodup_cons.mp hlist.nodup).2).1
      · exact fun hbs => h.apart c hc large' (by simp [hfree, hbs])
    · rw [update_of_ne heq]
      rcases List.mem_cons.mp hc with rfl | hc
      · exact fun hfree' => heq (h.known_unique (h.known _ _ hfree') (h.known _ _ hmem))
      · exact h.apart c hc large'
  · intro large' c hc
    by_cases heq : large' = large
    · subst heq
      rw [update_self] at hc
      exact h.known large' c (by simp [hfree, hc])
    · rw [update_of_ne heq] at hc
      exact h.known large' c hc
  · intro c hc
    rcases List.mem_cons.mp hc with rfl | hc
    · exact ⟨large, h.known large c hmem⟩
    · exact h.heldKnown c hc
  · intro large' c hc
    rcases h.all large' c hc with hc' | hc'
    · by_cases heq : large' = large
      · subst heq
        rw [update_self]
        rw [hfree, List.mem_cons] at hc'
        rcases hc' with rfl | hc'
        · exact .inr List.mem_cons_self
        · exact .inl hc'
      · rw [update_of_ne heq]
        exact .inl hc'
    · exact .inr (List.mem_cons_of_mem _ hc')

/-- A buffer that is in a list is not put there again. -/
theorem Pool.put_free (h : Pool logsize bufs m free held) {large : Bool} (hb : b ∈ free large)
    (logsize' : Int) : pvLogPutBuffer logsize' (some b) m = some m := by
  obtain ⟨xs, ys, hsplit⟩ := List.append_of_mem hb
  have hlist := h.lists large
  rw [hsplit] at hlist
  rw [pvLogPutBuffer, dlListEmpty_item hlist]
  rfl

/-- A buffer that someone has goes back to the list for its size. -/
theorem Pool.put_held (h : Pool logsize bufs m free held) (hb : b ∈ held) :
    ∃ m' free', pvLogPutBuffer logsize (some b) m = some m' ∧
      Pool logsize bufs m' free' (held.filter (some · ≠ some b)) := by
  obtain ⟨large, hknown⟩ := h.heldKnown b hb
  have hout := h.held_disjoint hb large
  obtain ⟨links, hadd, hlist, hsame, -⟩ := dlListAdd_spec (h.lists large)
    (fun hmem => hout (List.mem_singleton_self b) hmem) ((h.own b hb).live b (by simp))
  have hput : pvLogPutBuffer logsize (some b) m = some { m with links := links } := by
    rw [pvLogPutBuffer, dlListEmpty_eq (h.own b hb), (h.sizes large b hknown).1]
    have hpos := (h.sizes large b hknown).2
    have hother : logsize ≠ logsize * 2 := by omega
    cases large with
    | false => simp [sizeFor, hadd]
    | true => simp [sizeFor, hadd, hother]
  refine ⟨_, update free large (b :: free large), hput, ?_, ?_, ?_, ?_, ?_, ?_, h.buffers, h.sizes⟩
  · intro large'
    by_cases heq : large' = large
    · subst heq
      rw [update_self]
      exact hlist
    · rw [update_of_ne heq]
      refine (h.lists large').frame hsame ?_
      rw [List.disjoint_cons_right]
      exact ⟨fun hmem => h.held_disjoint hb large' (List.mem_singleton_self b) hmem,
        h.lists_disjoint heq⟩
  · intro c hc
    obtain ⟨hc, hne⟩ := List.mem_filter.mp hc
    have hcb : c ≠ b := by simpa using hne
    refine (h.own c hc).frame hsame ?_
    rw [List.disjoint_cons_right]
    exact ⟨by simpa using fun heq => hcb heq.symm, h.held_disjoint hc large⟩
  · intro c hc large'
    obtain ⟨hc, hne⟩ := List.mem_filter.mp hc
    have hcb : c ≠ b := by simpa using hne
    by_cases heq : large' = large
    · subst heq
      rw [update_self, List.mem_cons, not_or]
      exact ⟨hcb, h.apart c hc large'⟩
    · rw [update_of_ne heq]
      exact h.apart c hc large'
  · intro large' c hc
    by_cases heq : large' = large
    · subst heq
      rw [update_self] at hc
      rcases List.mem_cons.mp hc with rfl | hc
      · exact hknown
      · exact h.known large' c hc
    · rw [update_of_ne heq] at hc
      exact h.known large' c hc
  · exact fun c hc => h.heldKnown c (List.mem_filter.mp hc).1
  · intro large' c hc
    by_cases hcb : c = b
    · subst hcb
      obtain rfl := h.known_unique hc hknown
      exact .inl (by simp)
    · rcases h.all large' c hc with hc' | hc'
      · left
        by_cases heq : large' = large
        · subst heq
          rw [update_self]
          exact List.mem_cons_of_mem _ hc'
        · rw [update_of_ne heq]
          exact hc'
      · exact .inr (List.mem_filter.mpr ⟨hc', by simpa using hcb⟩)

/-! ## The start -/

/-- The buffer of two calls that both succeed. -/
def Callocs.granted (c : Callocs) : Option LogNode := if c.buf then c.buffer else none

/-- The buffers that a number of calls give, if their size is one that is asked for. -/
def granted (size : Int) (items : Nat) (calls : List Callocs) : List LogNode :=
  if size ≤ 0 then [] else (calls.take items).filterMap Callocs.granted

/-- `calloc` gives what is not in use. -/
structure Fresh (m : LogMem) (bs : List LogNode) : Prop where
  nodup : bs.Nodup
  unused : ∀ b ∈ bs, m.links.live b = false
  buffers : ∀ b ∈ bs, ∃ a, b = .buffer a

/-- What the start of a list leaves, of the items before and the new ones. -/
structure Started (size : Int) (head : LogNode) (new old : List LogNode) (m m' : LogMem) :
    Prop where
  list : DlList m'.links head new
  sizes : ∀ b ∈ new, m'.size b = size ∧ 0 < size
  same : SameOff (new ++ head :: old) m.links m'.links
  kept : ∀ b, b ∉ new → m'.size b = m.size b

theorem granted_nil {size : Int} {items : Nat} : granted size items [] = [] := by
  simp [granted]

theorem granted_succ {size : Int} {items : Nat} {c : Callocs} {calls : List Callocs} :
    granted size (items + 1) (c :: calls)
      = (if size ≤ 0 then none else c.granted).toList ++ granted size items calls := by
  by_cases hsize : size ≤ 0
  · simp [granted, hsize]
  · cases hc : c.granted with
    | none => simp [granted, hsize, hc]
    | some b => simp [granted, hsize, hc]

theorem pvLogAllocBuffer_eq (size : Int) (c : Callocs) (m : LogMem) :
    pvLogAllocBuffer size c m = match (if size ≤ 0 then none else c.granted) with
      | none => (none, m)
      | some buffer => (some buffer, ⟨m.links.calloc buffer, update m.size buffer size⟩) := by
  by_cases hsize : size ≤ 0
  · simp [pvLogAllocBuffer, hsize]
  · rw [pvLogAllocBuffer, if_neg hsize, if_neg hsize, Callocs.granted]
    cases c.buffer <;> cases c.buf <;> rfl

/-- The buffers that are allocated come before what is in the list. -/
theorem allocLoop_spec {size : Int} {head : LogNode} : ∀ {items : Nat} {calls : List Callocs}
    {allocated : Nat} {m : LogMem} {xs : List LogNode}, items + allocated ≤ maxBufferCount →
      DlList m.links head xs → Fresh m (granted size items calls) →
        (∀ b ∈ xs, m.size b = size ∧ 0 < size) →
      ∃ n m', allocLoop size head items calls allocated m = some (n, m') ∧
        Started size head ((granted size items calls).reverse ++ xs) [] m m'
  | 0, calls, allocated, m, xs, _, hlist, _, hsizes => by
      have hnone : granted size 0 calls = [] := by simp [granted]
      rw [hnone]
      exact ⟨allocated, m, rfl, hlist, hsizes, fun _ _ => ⟨rfl, rfl, rfl⟩, fun _ _ => rfl⟩
  | items + 1, calls, allocated, m, xs, hle, hlist, hfresh, hsizes => by
      have hroom : ¬ maxBufferCount ≤ allocated := by omega
      -- where there is no more memory, the calls go on without it
      obtain ⟨c, hhead, hgranted⟩ : ∃ c, calls.headD ⟨none, false⟩ = c ∧
          granted size (items + 1) calls
            = (if size ≤ 0 then none else c.granted).toList ++ granted size items calls.tail := by
        cases calls with
        | nil =>
            refine ⟨_, rfl, ?_⟩
            rw [List.tail_nil, granted_nil, granted_nil]
            simp [Callocs.granted]
        | cons c calls => exact ⟨c, rfl, granted_succ⟩
      rw [hgranted] at hfresh ⊢
      rw [allocLoop, if_neg hroom, hhead, pvLogAllocBuffer_eq]
      by_cases hsize : size ≤ 0
      · simp only [if_pos hsize, Option.toList_none, List.nil_append] at hfresh ⊢
        exact allocLoop_spec (by omega) hlist hfresh hsizes
      rw [if_neg hsize] at hfresh ⊢
      cases hc : c.granted with
      | none =>
          rw [hc, Option.toList_none, List.nil_append] at hfresh
          exact allocLoop_spec (by omega) hlist hfresh hsizes
      | some b =>
          rw [hc, Option.toList_some] at hfresh
          have hunused := hfresh.unused b (by simp)
          have hnew : b ∉ head :: xs := fun hmem => by
            rw [hlist.live b hmem] at hunused
            cases hunused
          have hcalloc : SameOff [b] m.links (m.links.calloc b) := by
            intro a ha
            rw [List.mem_singleton] at ha
            exact ⟨update_of_ne ha _ _, update_of_ne ha _ _, update_of_ne ha _ _⟩
          obtain ⟨links, hadd, hlist', hsame, -⟩ :=
            dlListAdd_spec (hlist.frame hcalloc (by simpa using hnew)) hnew (update_self ..)
          have hsame : SameOff (b :: head :: xs) m.links links :=
            (hcalloc.mono (by simp)).trans hsame
          obtain ⟨hnodup, hrest⟩ := List.nodup_cons.mp (List.singleton_append ▸ hfresh.nodup)
          have hfresh' : Fresh ⟨links, update m.size b size⟩ (granted size items calls.tail) := by
            refine ⟨hrest, fun a ha => ?_, fun a ha => hfresh.buffers a (by simp [ha])⟩
            have hdead := hfresh.unused a (by simp [ha])
            have hoff : a ∉ b :: head :: xs := by
              rw [List.mem_cons, not_or]
              refine ⟨fun heq => hnodup (heq ▸ ha), fun hmem => ?_⟩
              rw [hlist.live a hmem] at hdead
              cases hdead
            exact (hsame a hoff).2.2.trans hdead
          have hsizes' : ∀ a ∈ b :: xs, update m.size b size a = size ∧ 0 < size := by
            intro a ha
            rcases List.mem_cons.mp ha with rfl | ha
            · exact ⟨update_self .., by omega⟩
            · rw [update_of_ne fun heq => hnew (by simp [← heq, ha])]
              exact hsizes a ha
          have hroom' : items + (allocated + 1) ≤ maxBufferCount := by omega
          obtain ⟨n, m', hrun, hend⟩ := allocLoop_spec hroom' hlist' hfresh' hsizes'
          have hall : ((some b).toList ++ granted size items calls.tail).reverse ++ xs
              = (granted size items calls.tail).reverse ++ b :: xs := by simp
          refine ⟨n, m', by simpa [hadd] using hrun, ?_⟩
          rw [hall]
          refine ⟨hend.list, hend.sizes, ?_, fun a ha => ?_⟩
          · refine (hsame.mono ?_).trans hend.same
            intro a ha
            simp only [List.mem_cons, List.mem_append] at ha ⊢
            tauto
          · rw [hend.kept a ha]
            exact update_of_ne (fun heq => ha (by simp [heq])) _ _

/-- The buffers that were in a list are taken out and freed. -/
theorem freeLoop_spec {head : LogNode} {xs : List LogNode} (hlist : DlList m.links head xs)
    {fuel : Nat} (hlt : xs.length < fuel) : ∃ m',
      dlListForEachSafe LogMem.links freeBuffer head fuel m = some m' ∧
        DlList m'.links head [] ∧ (∀ b ∈ xs, m'.links.live b = false) ∧
          SameOff (head :: xs) m.links m'.links ∧ m'.size = m.size := by
  let I : List LogNode → List LogNode → LogMem → Prop := fun kept rest m' =>
    kept = [] ∧ DlList m'.links head rest ∧ rest ⊆ xs ∧
      (∀ b ∈ xs, b ∉ rest → m'.links.live b = false) ∧
        SameOff (head :: xs) m.links m'.links ∧ m'.size = m.size
  have hlists : ∀ kept rest m', I kept rest m' → DlList m'.links head (kept ++ rest) := by
    rintro kept rest m' ⟨rfl, hl, -⟩
    exact hl
  have hbody : ∀ kept x rest m', I kept (x :: rest) m' → ∃ m'', freeBuffer x m' = some m'' ∧
      (I (kept ++ [x]) rest m'' ∨ I kept rest m'') := by
    rintro kept x rest m' ⟨rfl, hl, hsub, hdead, hsame, hsize⟩
    have hcut : DlList m'.links head ([] ++ x :: rest) := hl
    obtain ⟨links, hdel, hl', hsame', hlive⟩ := dlListDel_spec hcut
    have hx : links.live x = true := by
      rw [hlive]
      exact hl.live x (by simp)
    have hout : x ∉ head :: rest := by
      have hnodup := hl.nodup
      simp only [List.nodup_cons, List.mem_cons, not_or] at hnodup ⊢
      exact ⟨fun heq => hnodup.1.1 heq.symm, hnodup.2.1⟩
    have hfree : SameOff [x] links { links with live := update links.live x false } := by
      intro a ha
      rw [List.mem_singleton] at ha
      exact ⟨rfl, rfl, update_of_ne ha _ _⟩
    have hrun : freeBuffer x m'
        = some { m' with links := { links with live := update links.live x false } } := by
      simp [freeBuffer, hdel, DlHeap.free, hx]
    refine ⟨_, hrun, .inr ⟨rfl, hl'.frame hfree (by simpa using hout), ?_, ?_, ?_, hsize⟩⟩
    · exact fun a ha => hsub (List.mem_cons_of_mem _ ha)
    · intro b hb hrest
      by_cases hbx : b = x
      · rw [hbx]
        exact update_self ..
      · refine (update_of_ne hbx _ _).trans ?_
        rw [hlive]
        exact hdead b hb (by simp [hbx, hrest])
    · have hin : head :: ([] ++ x :: rest) ⊆ head :: xs := List.cons_subset_cons _ hsub
      refine hsame.trans ((hsame'.mono hin).trans (hfree.mono ?_))
      exact fun a ha => hin (by simp [List.mem_singleton.mp ha])
  have hstart : I [] xs m :=
    ⟨rfl, hlist, List.Subset.refl _, fun b hb hb' => absurd hb hb', fun _ _ => ⟨rfl, rfl, rfl⟩, rfl⟩
  obtain ⟨kept, m', hrun, -, hend, -, hdead, hsame, hsize⟩ :=
    dlListForEachSafe_rule hlists hbody hstart hlt
  exact ⟨m', hrun, hend, fun b hb => hdead b hb (by simp), hsame, hsize⟩

/-- **A list is started** with new buffers, and what was in it before is freed. -/
theorem pvLogInitBufCache_spec {size : Int} {head : LogNode} {calls : List Callocs}
    {xs : List LogNode} (hlist : DlList m.links head xs) {fuel : Nat} (hlt : xs.length < fuel)
    (hnodup : (granted size maxBufferCount calls).Nodup)
    (hfresh : ∀ b ∈ granted size maxBufferCount calls,
      (m.links.live b = false ∨ b ∈ xs) ∧ ∃ a, b = .buffer a) :
    ∃ n m', pvLogInitBufCache fuel maxBufferCount size head calls m = some (n, m') ∧
      Started size head (granted size maxBufferCount calls).reverse xs m m' := by
  have hempty := dlListEmpty_eq hlist
  obtain ⟨m₁, hfree, hlist₁, hdead, hsame, hsize⟩ : ∃ m₁,
      (if !xs.isEmpty then dlListForEachSafe LogMem.links freeBuffer head fuel m else some m)
        = some m₁ ∧ DlList m₁.links head [] ∧ (∀ b ∈ xs, m₁.links.live b = false) ∧
          SameOff (head :: xs) m.links m₁.links ∧ m₁.size = m.size := by
    cases xs with
    | nil => exact ⟨m, rfl, hlist, by simp, fun _ _ => ⟨rfl, rfl, rfl⟩, rfl⟩
    | cons x xs => exact freeLoop_spec hlist hlt
  have hunused : Fresh m₁ (granted size maxBufferCount calls) := by
    refine ⟨hnodup, fun b hb => ?_, fun b hb => (hfresh b hb).2⟩
    rcases (hfresh b hb).1 with hb' | hb'
    · by_cases hmem : b ∈ head :: xs
      · rw [hlist.live b hmem] at hb'
        cases hb'
      · exact (hsame b hmem).2.2.trans hb'
    · exact hdead b hb'
  have hroom : maxBufferCount + 0 ≤ maxBufferCount := Nat.le_refl _
  obtain ⟨n, m', hrun, hend⟩ := allocLoop_spec hroom hlist₁ hunused (by simp)
  rw [List.append_nil] at hend
  refine ⟨n, m', ?_, hend.list, hend.sizes, ?_, fun b hb => ?_⟩
  · rw [pvLogInitBufCache, hempty]
    cases hxs : xs.isEmpty with
    | true =>
        obtain rfl : m = m₁ := by simpa [hxs] using hfree
        simpa using hrun
    | false =>
        rw [hxs] at hfree
        simpa [show dlListForEachSafe LogMem.links freeBuffer head fuel m = some m₁ from hfree]
          using hrun
  · refine (hsame.mono ?_).trans (hend.same.mono ?_)
    · exact fun a ha => List.mem_append_right _ ha
    · intro a ha
      simp only [List.mem_append, List.mem_cons, List.not_mem_nil, or_false] at ha ⊢
      tauto
  · rw [hend.kept b hb, hsize]

/-- The buffers that `pv_log_init` allocates for a list. -/
def startBuffers (logsize : Int) (calls : Bool → List Callocs) (large : Bool) : List LogNode :=
  (granted (sizeFor logsize large) maxBufferCount (calls large)).reverse

/-- All buffers are in the lists at the start. -/
theorem pool_start {calls : Bool → List Callocs} (hdoubles : Doubles logsize)
    (hstatic : ∀ large, DlList m.links (.head large) [])
    (hfresh : Fresh m (startBuffers logsize calls false ++ startBuffers logsize calls true))
    {fuel : Nat} (hfuel : 0 < fuel) : ∃ m', pvLogInit fuel logsize calls m = some m' ∧
      Pool logsize (startBuffers logsize calls) m' (startBuffers logsize calls) [] := by
  obtain ⟨hnodup₁, hnodup₂, hapart⟩ := List.nodup_append.mp hfresh.nodup
  have hmem : ∀ {large b}, b ∈ startBuffers logsize calls large →
      b ∈ startBuffers logsize calls false ++ startBuffers logsize calls true := by
    intro large b hb
    cases large <;> simp [hb]
  have hunused : ∀ {large b}, b ∈ granted (sizeFor logsize large) maxBufferCount (calls large) →
      m.links.live b = false ∧ ∃ a, b = .buffer a := fun {large b} hb =>
    have hb' := hmem (List.mem_reverse.mpr hb)
    ⟨hfresh.unused b hb', hfresh.buffers b hb'⟩
  obtain ⟨n₁, m₁, hrun₁, hend₁⟩ := pvLogInitBufCache_spec (hstatic false) hfuel
    (List.nodup_reverse.mp hnodup₁)
    fun b hb => ⟨.inl (hunused hb).1, (hunused hb).2⟩
  -- the second list and its buffers are as they were
  have hoff : ∀ a, a = LogNode.head true ∨ a ∈ startBuffers logsize calls true →
      a ∉ startBuffers logsize calls false ++ [.head false] := by
    intro a ha hmem'
    rcases List.mem_append.mp hmem' with hmem' | hmem'
    · rcases ha with rfl | ha
      · obtain ⟨i, hi⟩ := (hfresh.buffers _ (hmem hmem'))
        cases hi
      · exact hapart a hmem' a ha rfl
    · rw [List.mem_singleton] at hmem'
      subst hmem'
      rcases ha with ha | ha
      · cases ha
      · obtain ⟨i, hi⟩ := (hfresh.buffers _ (hmem ha))
        cases hi
  have hstatic₁ : DlList m₁.links (.head true) [] := by
    refine (hstatic true).frame hend₁.same ?_
    intro a ha
    exact hoff a (.inl (List.mem_singleton.mp ha))
  obtain ⟨n₂, m₂, hrun₂, hend₂⟩ := pvLogInitBufCache_spec hstatic₁ hfuel
    (List.nodup_reverse.mp hnodup₂) fun b hb => by
      have hb' : b ∈ startBuffers logsize calls true := List.mem_reverse.mpr hb
      exact ⟨.inl (((hend₁.same b (hoff b (.inr hb'))).2.2).trans (hfresh.unused b (hmem hb'))),
        hfresh.buffers b (hmem hb')⟩
  have hback : ∀ a ∈ LogNode.head false :: startBuffers logsize calls false,
      a ∉ startBuffers logsize calls true ++ [.head true] := by
    intro a ha hmem'
    rcases List.mem_append.mp hmem' with hmem' | hmem'
    · exact hoff a (.inr hmem') (by simpa [or_comm] using ha)
    · exact hoff a (.inl (List.mem_singleton.mp hmem')) (by simpa [or_comm] using ha)
  refine ⟨m₂, ?_, ?_, by simp, by simp, fun _ _ hb => hb, by simp, fun _ _ hb => .inl hb, ?_, ?_⟩
  · have hsmall : pvLogInitBufCache fuel maxBufferCount logsize (.head false) (calls false) m
        = some (n₁, m₁) := hrun₁
    have hlarge : pvLogInitBufCache fuel maxBufferCount (logsize * 2) (.head true) (calls true) m₁
        = some (n₂, m₂) := hrun₂
    simp [pvLogInit, hsmall, hlarge, hdoubles]
  · intro large
    cases large with
    | false => exact hend₁.list.frame hend₂.same fun a ha => hback a ha
    | true => exact hend₂.list
  · exact fun large b hb => hfresh.buffers b (hmem hb)
  · intro large b hb
    cases large with
    | false =>
        rw [hend₂.kept b fun hb' => hapart b hb b hb' rfl]
        exact hend₁.sizes b hb
    | true =>
        have hpos : 0 < logsize * 2 := (hend₂.sizes b hb).2
        exact ⟨(hend₂.sizes b hb).1, by omega⟩

/-! ## Runs -/

/-- Clients put back what they got, or nothing, while the configuration stays as it is. -/
def GoodCalls (logsize : Int) (bufs : Bool → List LogNode) (cs : List (Int × BufferCall)) : Prop :=
  ∀ c ∈ cs, c.1 = logsize ∧ ∀ b, c.2 = .put (some b) → ∃ large, b ∈ bufs large

theorem runCalls_served : ∀ {cs : List (Int × BufferCall)} {m : LogMem}
    {free : Bool → List LogNode} {held : List LogNode}, Pool logsize bufs m free held →
      GoodCalls logsize bufs cs → ∃ outs m' free' held', runCalls cs m = some (outs, m') ∧
        Pool logsize bufs m' free' held' ∧ Served bufs held cs outs
  | [], m, free, held, h, _ => ⟨[], m, free, held, rfl, h, rfl⟩
  | (size, c) :: cs, m, free, held, h, hcs => by
      obtain ⟨hsize, hput⟩ := hcs (size, c) List.mem_cons_self
      obtain rfl : logsize = size := hsize.symm
      have hrest : GoodCalls logsize bufs cs := fun c hc => hcs c (List.mem_cons_of_mem _ hc)
      have hgo : ∀ {out m' free' held'}, c.result logsize m = some (out, m') →
          Pool logsize bufs m' free' held' → ∃ outs m'' free'' held'',
            runCalls ((logsize, c) :: cs) m = some (out :: outs, m'') ∧
              Pool logsize bufs m'' free'' held'' ∧ Served bufs held' cs outs := by
        intro out m' free' held' hresult hpool
        obtain ⟨outs, m'', free'', held'', hrun, hend⟩ := runCalls_served hpool hrest
        exact ⟨outs, m'', free'', held'', by simp [runCalls, hresult, hrun], hend⟩
      cases c with
      | get large =>
          cases hfree : free large with
          | nil =>
              obtain ⟨outs, m'', free'', held'', hrun, hpool, hserved⟩ := hgo (h.get_none hfree) h
              refine ⟨_, m'', free'', held'', hrun, hpool, fun b hb => ?_, hserved⟩
              exact (h.all large b hb).resolve_left (by simp [hfree])
          | cons b bs =>
              obtain ⟨m', hget, hpool⟩ := h.get_some hfree
              obtain ⟨outs, m'', free'', held'', hrun, hpool, hserved⟩ := hgo hget hpool
              have hmem : b ∈ free large := by simp [hfree]
              exact ⟨_, m'', free'', held'', hrun, hpool, h.known large b hmem,
                fun hb => h.apart b hb large hmem, hserved⟩
      | put p =>
          have hsame : (∀ b ∈ held, some b ≠ p) → held.filter (some · ≠ p) = held := fun hne =>
            List.filter_eq_self.mpr fun b hb => by simpa using hne b hb
          cases p with
          | none =>
              obtain ⟨outs, m'', free'', held'', hrun, hpool, hserved⟩ := hgo
                (show BufferCall.result logsize m (.put none) = some (none, m) from rfl) h
              refine ⟨_, m'', free'', held'', hrun, hpool, ?_⟩
              rw [Served, hsame (by simp)]
              exact hserved
          | some b =>
              obtain ⟨large, hb⟩ := hput b rfl
              rcases h.all large b hb with hfree | hheld
              · obtain ⟨outs, m'', free'', held'', hrun, hpool, hserved⟩ := hgo
                  (congrArg (Option.map fun m => ((none : Option LogNode), m))
                    (h.put_free hfree logsize)) h
                refine ⟨_, m'', free'', held'', hrun, hpool, ?_⟩
                rw [Served, hsame]
                · exact hserved
                · rintro c hc heq
                  exact h.apart c hc large (Option.some.inj heq ▸ hfree)
              · obtain ⟨m', free', hput', hpool⟩ := h.put_held hheld
                obtain ⟨outs, m'', free'', held'', hrun, hpool, hserved⟩ := hgo
                  (congrArg (Option.map fun m => ((none : Option LogNode), m)) hput') hpool
                exact ⟨_, m'', free'', held'', hrun, hpool, hserved⟩

/-- **The buffers of the logs**, from the start on: whatever the clients call, the memory is not
at fault, and each of them gets a buffer of the size it asks for that no one else has, as long
as there is one. In the end every buffer is in the list it belongs to, or with a client. -/
theorem logBuffers_served {m₀ : LogMem} (hstatic : ∀ large, DlList m₀.links (.head large) [])
    {logsize : Int} (hdoubles : Doubles logsize) (calls : Bool → List Callocs)
    (hfresh : Fresh m₀ (startBuffers logsize calls false ++ startBuffers logsize calls true))
    {fuel : Nat} (hfuel : 0 < fuel) {cs : List (Int × BufferCall)}
    (hcs : GoodCalls logsize (startBuffers logsize calls) cs) :
    ∃ m outs m', pvLogInit fuel logsize calls m₀ = some m ∧ runCalls cs m = some (outs, m') ∧
      Served (startBuffers logsize calls) [] cs outs ∧
        (∀ large, ∀ b ∈ startBuffers logsize calls large, m'.size b = sizeFor logsize large) ∧
        ∃ free held, Pool logsize (startBuffers logsize calls) m' free held ∧
          (free false).Disjoint (free true) := by
  obtain ⟨m, hinit, hpool⟩ := pool_start hdoubles hstatic hfresh hfuel
  obtain ⟨outs, m', free, held, hrun, hend, hserved⟩ := runCalls_served hpool hcs
  refine ⟨m, outs, m', hinit, hrun, hserved, fun large b hb => (hend.sizes large b hb).1,
    free, held, hend, fun b hsmall hlarge => ?_⟩
  exact (List.nodup_append.mp hfresh.nodup).2.2 b (hend.known false b hsmall) b
    (hend.known true b hlarge) rfl

/-- The memory before the start: two heads, by `DEFINE_DL_LIST`. -/
def staticMem : LogMem where
  links := {
    next := fun a => match a with
      | .head large => some (.head large)
      | .buffer _ => none
    prev := fun a => match a with
      | .head large => some (.head large)
      | .buffer _ => none
    live := fun a => match a with
      | .head _ => true
      | .buffer _ => false }
  size := fun _ => 0

/-- Memory for two buffers of the smaller size, and for one of the larger. -/
def threeCallocs (large : Bool) : List Callocs :=
  if large then [⟨some (.buffer 2), true⟩, ⟨some (.buffer 3), false⟩]
  else [⟨some (.buffer 0), true⟩, ⟨some (.buffer 1), true⟩]

theorem staticMem_lists (large : Bool) : DlList staticMem.links (.head large) [] where
  nodup := by simp
  links := .cons_cons ⟨rfl, rfl⟩ (.singleton _)
  live a ha := by
    rw [List.mem_singleton.mp ha]
    rfl

theorem threeCallocs_fresh :
    Fresh staticMem
      (startBuffers 1024 threeCallocs false ++ startBuffers 1024 threeCallocs true) := by
  have hall : startBuffers 1024 threeCallocs false ++ startBuffers 1024 threeCallocs true
      = [.buffer 1, .buffer 0, .buffer 2] := by decide
  rw [hall]
  exact ⟨by decide, by simp [staticMem], by simp⟩

/-- A client takes the large buffer and puts it back twice; the second one gets it in between
only after the first. -/
theorem logBuffers_served_twice :
    ∃ m outs m', pvLogInit 1 1024 threeCallocs staticMem = some m ∧
      runCalls [(1024, .get true), (1024, .get true), (1024, .put (some (.buffer 2))),
        (1024, .put (some (.buffer 2))), (1024, .get true)] m = some (outs, m') ∧
      Served (startBuffers 1024 threeCallocs) [] [(1024, .get true), (1024, .get true),
        (1024, .put (some (.buffer 2))), (1024, .put (some (.buffer 2))), (1024, .get true)] outs ∧
      (∀ large, ∀ b ∈ startBuffers 1024 threeCallocs large, m'.size b = sizeFor 1024 large) ∧
      ∃ free held, Pool 1024 (startBuffers 1024 threeCallocs) m' free held ∧
        (free false).Disjoint (free true) := by
  refine logBuffers_served staticMem_lists (by decide) threeCallocs threeCallocs_fresh
    Nat.one_pos ?_
  intro c hc
  have hsizes : c.1 = 1024 := by
    revert c
    decide
  refine ⟨hsizes, fun b hb => ⟨true, ?_⟩⟩
  simp only [List.mem_cons, List.not_mem_nil, or_false] at hc
  rcases hc with rfl | rfl | rfl | rfl | rfl <;> cases hb <;> decide

/-- Where the configuration says another size by then, a small buffer comes into the list of the
large ones, and goes to the next client that asks for one of these. -/
example : ((pvLogInit 1 1024 threeCallocs staticMem).bind fun m =>
    (runCalls [(1024, .get false), (4096, .put (some (.buffer 1))), (4096, .get true)] m).map
      Prod.fst) = some [some (.buffer 1), none, some (.buffer 1)] := by
  decide

end Pantavisor.Log
