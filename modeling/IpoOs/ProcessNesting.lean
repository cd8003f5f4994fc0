import IpoOs.ProcessList

/-!
# The process list is restored

The list holds the processes of the calls under way, the innermost first,
in every state that the machine reaches. A call that returns leaves the
calls around it as they were, so it leaves the list and the current process
as they were.

The induction is on the run, and the invariant on the stack of calls: the
list in memory is the list of their processes, the blocks of different calls
are apart, and what a call saved of the call around it is still what that
call had.
-/

namespace IpoOs

/-! ## Memory

What the allocator, a store and `process_cleanup` do to the memory of the
structures. -/

namespace ProcManager

variable {pm pm' : ProcManager} {p q : Nat} {l : List Nat}

@[simp] theorem kfree_mem (p : Nat) (pm : ProcManager) : (pm.kfree p).mem = pm.mem := rfl
@[simp] theorem kfree_processList (p : Nat) (pm : ProcManager) :
    (pm.kfree p).processList = pm.processList := rfl
@[simp] theorem kfree_currentProcess (p : Nat) (pm : ProcManager) :
    (pm.kfree p).currentProcess = pm.currentProcess := rfl

theorem kfree_live_of_ne (h : q ≠ p) : (pm.kfree p).live q = pm.live q :=
  Function.update_of_ne h _ _

theorem kmalloc_eq (h : pm.kmalloc p = some pm') : p ≠ 0 ∧ pm.live p = false
    ∧ pm' = pm.setLive (Function.update pm.live p true) := by
  unfold kmalloc at h
  split at h
  · rename_i hfree
    exact ⟨hfree.1, hfree.2, (Option.some.inj h).symm⟩
  · cases h

/-- Calls of `kmalloc` give blocks that were not in use, and leave everything else alone. -/
theorem kmallocs_spec (h : pm.kmallocs l = some pm') :
    (∀ q ∈ l, q ≠ 0 ∧ pm.live q = false ∧ pm'.live q = true) ∧ l.Nodup
    ∧ (∀ q, pm.live q = true → pm'.live q = true) ∧ ∃ live, pm' = pm.setLive live := by
  induction l generalizing pm with
  | nil =>
      obtain rfl := Option.some.inj h
      exact ⟨fun q hq => absurd hq List.not_mem_nil, List.nodup_nil, fun q hq => hq, pm.live, rfl⟩
  | cons p l ih =>
      obtain ⟨pm₁, hp, hrest⟩ := Option.bind_eq_some_iff.mp h
      obtain ⟨h0, hfree, hpm₁⟩ := kmalloc_eq hp
      obtain ⟨hall, hnd, hkeep, live, hpm'⟩ := ih hrest
      have hself : pm₁.live p = true := by
        rw [hpm₁]
        exact Function.update_self ..
      have hother : ∀ q, q ≠ p → pm₁.live q = pm.live q := by
        intro q hne
        rw [hpm₁]
        exact Function.update_of_ne hne _ _
      have hpl : p ∉ l := by
        intro hmem
        have hfree' := (hall p hmem).2.1
        rw [hself] at hfree'
        cases hfree'
      refine ⟨fun q hq => ?_, List.nodup_cons.mpr ⟨hpl, hnd⟩, fun q hq => hkeep q ?_, live, ?_⟩
      · rcases List.mem_cons.mp hq with rfl | hq
        · exact ⟨h0, hfree, hkeep q hself⟩
        · obtain ⟨hq0, hqfree, hqlive⟩ := hall q hq
          rw [hother q fun heq => hpl (heq ▸ hq)] at hqfree
          exact ⟨hq0, hqfree, hqlive⟩
      · rcases em (q = p) with rfl | hne
        · exact hself
        · rw [hother q hne]
          exact hq
      · rw [hpm', hpm₁]
        rfl

theorem kfreeAll_spec (l : List Nat) (pm : ProcManager) :
    (∀ q, q ∉ l → (pm.kfreeAll l).live q = pm.live q)
    ∧ ∃ live, pm.kfreeAll l = pm.setLive live := by
  induction l generalizing pm with
  | nil => exact ⟨fun q _ => rfl, pm.live, rfl⟩
  | cons p l ih =>
      obtain ⟨hlive, live, heq⟩ := ih (pm.kfree p)
      refine ⟨fun q hq => ?_, live, heq⟩
      rw [List.mem_cons, not_or] at hq
      exact (hlive q hq.2).trans (kfree_live_of_ne hq.1)

/-- The loop takes a process out of the list, the first one or one further on. -/
theorem unlink_spec (h : ListAt pm.next 0 pm.processList l) (hp : p ∈ l) :
    (∃ n, (pm.unlink n p).isSome) ∧ ∀ n pm', pm.unlink n p = some pm' →
      ListAt pm'.next 0 pm'.processList (l.erase p)
      ∧ (∀ q, (pm'.mem q).blocks = (pm.mem q).blocks) ∧ pm'.live = pm.live
      ∧ pm'.currentProcess = pm.currentProcess := by
  unfold unlink
  rcases em (pm.processList = p) with hfirst | hlater
  · simp only [if_pos hfirst]
    refine ⟨⟨0, rfl⟩, fun n pm' hsome => ?_⟩
    obtain rfl := Option.some.inj hsome
    refine ⟨?_, fun q => rfl, rfl, rfl⟩
    cases l with
    | nil => exact absurd hp List.not_mem_nil
    | cons x l =>
        obtain ⟨hx, -, hrest⟩ := h
        obtain rfl : p = x := hfirst.symm.trans hx
        rw [List.erase_cons_head]
        exact hrest
  · simp only [if_neg hlater]
    obtain ⟨n, hn⟩ := h.nodeBefore_isSome hp hlater
    refine ⟨⟨n, by rwa [Option.isSome_map]⟩, fun n pm' hsome => ?_⟩
    obtain ⟨q, hq, rfl⟩ := Option.map_eq_some_iff.mp hsome
    obtain ⟨hmem, h0, hnext⟩ := h.nodeBefore_eq hp hlater hq
    rw [if_pos h0]
    refine ⟨?_, fun q' => ?_, rfl, rfl⟩
    · have hupdate : (pm.store q { pm.mem q with next := pm.next p }).next
          = Function.update pm.next q (pm.next p) := by
        funext q'
        show ((Function.update pm.mem q { pm.mem q with next := pm.next p }) q').next = _
        rcases em (q' = q) with rfl | hne
        · rw [Function.update_self, Function.update_self]
        · rw [Function.update_of_ne hne, Function.update_of_ne hne]
          rfl
      rw [hupdate]
      exact h.erase hp hlater hmem hnext
    · show ((Function.update pm.mem q { pm.mem q with next := pm.next p }) q').blocks = _
      rcases em (q' = q) with rfl | hne
      · rw [Function.update_self]
        rfl
      · rw [Function.update_of_ne hne]

end ProcManager

/-- `process_cleanup` of a process in the list takes it out and gives back its blocks. -/
theorem processCleanupAt_spec {pm : ProcManager} {p : Nat} {l : List Nat}
    (h : ListAt pm.next 0 pm.processList l) (hp : p ∈ l) :
    (∃ n, (processCleanupAt n p pm).isSome) ∧ ∀ n pm', processCleanupAt n p pm = some pm' →
      ListAt pm'.next 0 pm'.processList (l.erase p)
      ∧ (∀ q, (pm'.mem q).blocks = (pm.mem q).blocks)
      ∧ (∀ q, q ≠ p → q ∉ (pm.mem p).blocks → pm'.live q = pm.live q)
      ∧ pm'.currentProcess = pm.currentProcess := by
  obtain ⟨hlive, live, heq⟩ := ProcManager.kfreeAll_spec (pm.mem p).blocks pm
  unfold processCleanupAt
  rw [heq] at hlive ⊢
  obtain ⟨⟨n, hn⟩, hall⟩ := @ProcManager.unlink_spec (pm.setLive live) p l h hp
  refine ⟨⟨n, by rwa [Option.isSome_map]⟩, fun n pm' hsome => ?_⟩
  obtain ⟨pm₁, hrun, rfl⟩ := Option.map_eq_some_iff.mp hsome
  obtain ⟨hlist, hblocks, hsame, hcurrent⟩ := hall n pm₁ hrun
  refine ⟨hlist, hblocks, fun q hne hq => ?_, hcurrent⟩
  rw [ProcManager.kfree_live_of_ne hne, hsame]
  exact hlive q hq

/-! ## The invariant

`Sound` ties the frames, the list and the live blocks together. -/

/-- The process of the innermost program that runs; `NULL` when there is none. -/
def currentOf : List Frame → Nat
  | [] => 0
  | ⟨p, .running _⟩ :: _ => p
  | _ :: rest => currentOf rest

/-- Every program that runs has saved the process that was current before. -/
def Saved : List Frame → Prop
  | [] => True
  | f :: rest => (∀ old, f.phase = .running old → old = currentOf rest) ∧ Saved rest

theorem Saved.idle {phase : Phase} {rest : List Frame} (h : Saved rest)
    (hphase : ∀ old, phase ≠ .running old) (p : Nat) : Saved (⟨p, phase⟩ :: rest) :=
  ⟨fun old hold => absurd hold (hphase old), h⟩

theorem loading_idle (old : Nat) : Phase.loading ≠ .running old := by
  intro h
  cases h

theorem loaded_idle (image old : Nat) : Phase.loaded image ≠ .running old := by
  intro h
  cases h

theorem placed_idle (old : Nat) : Phase.placed ≠ .running old := by
  intro h
  cases h

/-- The list holds the processes of the calls under way, and no block in use by a call is given
to anyone else. -/
structure ProcCalls.Sound (c : ProcCalls) : Prop where
  list : ListAt c.pm.next 0 c.pm.processList (c.stack.map Frame.proc)
  current : c.pm.currentProcess = currentOf c.stack
  saved : Saved c.stack
  live : ∀ q ∈ c.owned, c.pm.live q = true
  nodup : c.owned.Nodup

namespace ProcCalls

variable {c c' : ProcCalls} {pm pm' : ProcManager} {f f' : Frame} {rest : List Frame} {p q : Nat}
  {e : ProcEvent}

def blocksOf (mem : Nat → ProcStruct) (l : List Frame) : List Nat := l.flatMap (Frame.blocks mem)

theorem blocksOf_cons (mem : Nat → ProcStruct) (f : Frame) (rest : List Frame) :
    blocksOf mem (f :: rest) = f.blocks mem ++ blocksOf mem rest := List.flatMap_cons ..

theorem proc_mem_blocksOf {mem : Nat → ProcStruct} {l : List Frame} (h : p ∈ l.map Frame.proc) :
    p ∈ blocksOf mem l := by
  obtain ⟨f, hf, rfl⟩ := List.mem_map.mp h
  exact List.mem_flatMap.mpr ⟨f, hf, List.mem_cons_self⟩

theorem blocks_congr {mem mem' : Nat → ProcStruct}
    (h : (mem' f.proc).blocks = (mem f.proc).blocks) : f.blocks mem' = f.blocks mem := by
  unfold Frame.blocks
  rw [h]

theorem blocksOf_congr {mem mem' : Nat → ProcStruct} {l : List Frame}
    (h : ∀ q ∈ l.map Frame.proc, (mem' q).blocks = (mem q).blocks) :
    blocksOf mem' l = blocksOf mem l := by
  induction l with
  | nil => rfl
  | cons f l ih =>
      rw [blocksOf_cons, blocksOf_cons, blocks_congr (h f.proc List.mem_cons_self),
        ih fun q hq => h q (List.mem_cons_of_mem _ hq)]

theorem Sound.fresh (h : c.Sound) (hq : c.pm.live q = false) : q ∉ c.owned := by
  intro hmem
  rw [h.live q hmem] at hq
  cases hq

theorem Sound.fresh_proc (h : c.Sound) (hq : c.pm.live q = false) : q ∉ c.stack.map Frame.proc :=
  fun hmem => h.fresh hq (proc_mem_blocksOf hmem)

/-- The innermost call alone changed: its new blocks are its old ones or were not in use. -/
theorem Sound.replaceTop (h : Sound ⟨pm, f :: rest⟩) (hproc : f'.proc = f.proc)
    (hnext : ∀ q ∈ f.proc :: rest.map Frame.proc, pm'.next q = pm.next q)
    (hhead : pm'.processList = pm.processList)
    (hmem : ∀ q ∈ rest.map Frame.proc, (pm'.mem q).blocks = (pm.mem q).blocks)
    (hnew : ∀ q ∈ f'.blocks pm'.mem, (q ∈ f.blocks pm.mem ∨ pm.live q = false) ∧ pm'.live q = true)
    (hnd : (f'.blocks pm'.mem).Nodup) (hrest : ∀ q ∈ blocksOf pm.mem rest, pm'.live q = true)
    (hcur : pm'.currentProcess = currentOf (f' :: rest)) (hsaved : Saved (f' :: rest)) :
    Sound ⟨pm', f' :: rest⟩ := by
  have hold : (f.blocks pm.mem ++ blocksOf pm.mem rest).Nodup := h.nodup
  rw [List.nodup_append] at hold
  have hsame := @blocksOf_congr pm.mem pm'.mem rest hmem
  have howned : owned ⟨pm', f' :: rest⟩ = f'.blocks pm'.mem ++ blocksOf pm.mem rest := by
    rw [← hsame]
    exact blocksOf_cons _ _ _
  refine ⟨?_, hcur, hsaved, fun q hq => ?_, ?_⟩
  · show ListAt pm'.next 0 pm'.processList (f'.proc :: rest.map Frame.proc)
    rw [hhead, hproc]
    exact h.list.congr hnext
  · rw [howned, List.mem_append] at hq
    exact hq.elim (fun hq => (hnew q hq).2) (hrest q)
  · rw [howned, List.nodup_append]
    refine ⟨hnd, hold.2.1, fun q hq q' hq' heq => ?_⟩
    rcases (hnew q hq).1 with hin | hfree
    · exact hold.2.2 q hin q' hq' heq
    · have hlive := h.live q' (List.mem_append_right _ hq' : q' ∈ f.blocks pm.mem ++ _)
      rw [← heq] at hlive
      exact absurd (hlive.symm.trans hfree) (by decide)

/-- The blocks of the calls around the innermost one are others than its own. -/
theorem Sound.rest_other (h : Sound ⟨pm, f :: rest⟩) (hq : q ∈ blocksOf pm.mem rest) :
    q ∉ f.blocks pm.mem := by
  have hold : (f.blocks pm.mem ++ blocksOf pm.mem rest).Nodup := h.nodup
  exact fun hf => (List.nodup_append.mp hold).2.2 q hf q hq rfl

theorem Sound.rest_live (h : Sound ⟨pm, f :: rest⟩) (hq : q ∈ blocksOf pm.mem rest) :
    pm.live q = true := h.live q (List.mem_append_right _ hq : q ∈ f.blocks pm.mem ++ _)

theorem Sound.top_live (h : Sound ⟨pm, f :: rest⟩) (hq : q ∈ f.blocks pm.mem) :
    pm.live q = true := h.live q (List.mem_append_left _ hq : q ∈ f.blocks pm.mem ++ _)

theorem Sound.top_nodup (h : Sound ⟨pm, f :: rest⟩) : (f.blocks pm.mem).Nodup := by
  have hold : (f.blocks pm.mem ++ blocksOf pm.mem rest).Nodup := h.nodup
  exact (List.nodup_append.mp hold).1

/-! ## The steps

One lemma for each event, and from them the theorem about runs. -/

theorem Sound.setLive (h : c.Sound) {live : Nat → Bool} (hl : ∀ q ∈ c.owned, live q = true) :
    Sound ⟨c.pm.setLive live, c.stack⟩ := ⟨h.list, h.current, h.saved, hl, h.nodup⟩

/-- The innermost call cleaned up: any number of rounds will do. -/
theorem Sound.finish {phase : Phase} (h : Sound ⟨pm, ⟨p, phase⟩ :: rest⟩)
    (hphase : ∀ old, phase ≠ .running old) :
    (∃ n, (finish n p pm rest).isSome) ∧ ∀ n c', finish n p pm rest = some c' →
      c'.Sound ∧ c'.stack = rest := by
  obtain ⟨⟨n, hn⟩, hall⟩ := @processCleanupAt_spec pm p _ h.list List.mem_cons_self
  refine ⟨⟨n, by rwa [ProcCalls.finish, Option.isSome_map]⟩, fun n c' hrun => ?_⟩
  obtain ⟨pm', hclean, rfl⟩ := Option.map_eq_some_iff.mp hrun
  obtain ⟨hlist, hblocks, hlive, hcurrent⟩ := hall n pm' hclean
  have hsame := @blocksOf_congr pm.mem pm'.mem rest fun q _ => hblocks q
  have hcur : currentOf (⟨p, phase⟩ :: rest) = currentOf rest := by
    cases phase with
    | running old => exact absurd rfl (hphase old)
    | loading => rfl
    | loaded image => rfl
    | placed => rfl
  refine ⟨⟨?_, hcurrent.trans (h.current.trans hcur), h.saved.2, fun q hq => ?_, ?_⟩, rfl⟩
  · rw [List.map_cons, List.erase_cons_head] at hlist
    exact hlist
  · have hq' : q ∈ blocksOf pm.mem rest := hsame ▸ hq
    have hother := h.rest_other hq'
    unfold Frame.blocks at hother
    rw [List.mem_cons, List.mem_append, not_or, not_or] at hother
    exact (hlive q hother.1 hother.2.2).trans (h.rest_live hq')
  · have hold : (Frame.blocks pm.mem ⟨p, phase⟩ ++ blocksOf pm.mem rest).Nodup := h.nodup
    show (blocksOf pm'.mem rest).Nodup
    rw [hsame]
    exact (List.nodup_append.mp hold).2.1

theorem Sound.start (h : c.Sound) (hp : c.pm.kmalloc p = some pm) :
    Sound ⟨pm.insertProcess p, ⟨p, .loading⟩ :: c.stack⟩ := by
  obtain ⟨h0, hfree, rfl⟩ := ProcManager.kmalloc_eq hp
  have hproc := h.fresh_proc hfree
  have howned := h.fresh hfree
  have hmem : ∀ q, q ≠ p → ((c.pm.setLive (Function.update c.pm.live p true)).insertProcess p).mem q
      = c.pm.mem q := fun q hq => Function.update_of_ne hq _ _
  have hnew : ((c.pm.setLive (Function.update c.pm.live p true)).insertProcess p).mem p
      = { pid := c.pm.nextPid, binaryBase := 0, argc := 0, argvKernel := 0, argv := [],
          next := c.pm.processList } := Function.update_self ..
  have hsame := @blocksOf_congr c.pm.mem
    ((c.pm.setLive (Function.update c.pm.live p true)).insertProcess p).mem c.stack
    fun q hq => congrArg _ (hmem q fun heq => hproc (heq ▸ hq))
  have hall : owned ⟨(c.pm.setLive (Function.update c.pm.live p true)).insertProcess p,
      ⟨p, .loading⟩ :: c.stack⟩ = p :: c.owned := by
    refine (blocksOf_cons _ _ _).trans ?_
    rw [hsame, Frame.blocks, hnew]
    rfl
  refine ⟨?_, h.current, h.saved.idle loading_idle p, fun q hq => ?_, ?_⟩
  · refine ListAt.push (h.list.congr fun q hq => ?_) h0 (congrArg ProcStruct.next hnew)
    exact congrArg ProcStruct.next (hmem q fun heq => hproc (heq ▸ hq))
  · show Function.update c.pm.live p true q = true
    rw [hall] at hq
    rcases List.mem_cons.mp hq with rfl | hin
    · exact Function.update_self ..
    · have hne : q ≠ p := by
        rintro rfl
        exact howned hin
      rw [Function.update_of_ne hne]
      exact h.live q hin
  · rw [hall]
    exact List.nodup_cons.mpr ⟨howned, h.nodup⟩

theorem Sound.loaded (h : Sound ⟨pm, ⟨p, .loading⟩ :: rest⟩) {image : Nat}
    (hi : pm.kmalloc image = some pm') : Sound ⟨pm', ⟨p, .loaded image⟩ :: rest⟩ := by
  obtain ⟨-, hfree, rfl⟩ := ProcManager.kmalloc_eq hi
  have hlive : ∀ q, pm.live q = true → Function.update pm.live image true q = true := by
    intro q hq
    rcases em (q = image) with rfl | hne
    · exact Function.update_self ..
    · rw [Function.update_of_ne hne]
      exact hq
  have hnot : image ∉ Frame.blocks pm.mem ⟨p, .loading⟩ := by
    intro hmem
    rw [h.top_live hmem] at hfree
    cases hfree
  have hnd : (p :: (pm.mem p).blocks).Nodup := h.top_nodup
  refine h.replaceTop rfl (fun q _ => rfl) rfl (fun q _ => rfl) (fun q hq => ?_) ?_
    (fun q hq => hlive q (h.rest_live hq)) h.current (h.saved.2.idle (loaded_idle image) p)
  · have hq' : q ∈ p :: image :: (pm.mem p).blocks := hq
    rw [List.mem_cons, List.mem_cons, or_left_comm] at hq'
    rcases hq' with rfl | hq'
    · exact ⟨Or.inr hfree, Function.update_self ..⟩
    · have hmem : q ∈ Frame.blocks pm.mem ⟨p, .loading⟩ := List.mem_cons.mpr hq'
      exact ⟨Or.inl hmem, hlive q (h.top_live hmem)⟩
  · show (p :: image :: (pm.mem p).blocks).Nodup
    have hnot' : image ∉ p :: (pm.mem p).blocks := hnot
    rw [List.mem_cons, not_or] at hnot'
    rw [List.nodup_cons] at hnd
    rw [List.nodup_cons, List.nodup_cons, List.mem_cons, not_or]
    exact ⟨⟨fun heq => hnot'.1 heq.symm, hnd.1⟩, hnot'.2, hnd.2⟩

theorem Sound.unloaded {image : Nat} (h : Sound ⟨pm, ⟨p, .loaded image⟩ :: rest⟩) :
    Sound ⟨pm.kfree image, ⟨p, .loading⟩ :: rest⟩ := by
  have hnd : (p :: image :: (pm.mem p).blocks).Nodup := h.top_nodup
  rw [List.nodup_cons, List.nodup_cons, List.mem_cons, not_or] at hnd
  have htop : ∀ q ∈ p :: (pm.mem p).blocks, q ≠ image := by
    rintro q hq rfl
    rcases List.mem_cons.mp hq with heq | hq
    · exact hnd.1.1 heq.symm
    · exact hnd.2.1 hq
  refine h.replaceTop rfl (fun q _ => rfl) rfl (fun q _ => rfl) (fun q hq => ?_) ?_ (fun q hq => ?_)
    h.current (h.saved.2.idle loading_idle p)
  · have hq' : q ∈ p :: (pm.mem p).blocks := hq
    have hmem : q ∈ Frame.blocks pm.mem ⟨p, .loaded image⟩ := by
      show q ∈ p :: image :: (pm.mem p).blocks
      rw [List.mem_cons] at hq' ⊢
      exact hq'.imp_right (List.mem_cons_of_mem _)
    exact ⟨Or.inl hmem, (ProcManager.kfree_live_of_ne (htop q hq')).trans (h.top_live hmem)⟩
  · show (p :: (pm.mem p).blocks).Nodup
    exact List.nodup_cons.mpr ⟨hnd.1.2, hnd.2.2⟩
  · have hne : q ≠ image := by
      rintro rfl
      exact h.rest_other hq (List.mem_cons_of_mem _ List.mem_cons_self)
    exact (ProcManager.kfree_live_of_ne hne).trans (h.rest_live hq)

/-- The program put in place: a block of its own, and the buffer given back. -/
theorem Sound.placed {image target : Nat} (h : Sound ⟨pm, ⟨p, .loaded image⟩ :: rest⟩)
    (ht : pm.kmalloc target = some pm') :
    Sound ⟨(pm'.kfree image).store p { pm'.mem p with binaryBase := target },
      ⟨p, .placed⟩ :: rest⟩ := by
  obtain ⟨h0, hfree, rfl⟩ := ProcManager.kmalloc_eq ht
  have hnd : (p :: image :: (pm.mem p).blocks).Nodup := h.top_nodup
  rw [List.nodup_cons, List.nodup_cons, List.mem_cons, not_or] at hnd
  have hp : p ∉ rest.map Frame.proc := fun hmem =>
    h.rest_other (proc_mem_blocksOf hmem) List.mem_cons_self
  have hmem : ∀ q, q ≠ p → Function.update pm.mem p { pm.mem p with binaryBase := target } q
      = pm.mem q := fun q hq => Function.update_of_ne hq _ _
  have hnew : Frame.blocks (Function.update pm.mem p { pm.mem p with binaryBase := target })
      ⟨p, .placed⟩ = p :: target :: (if (pm.mem p).argvKernel ≠ 0 then
        ((pm.mem p).argv.take (pm.mem p).argc).filter (· ≠ 0)
            ++ [(pm.mem p).argvKernel] else []) := by
    unfold Frame.blocks
    rw [Function.update_self]
    unfold ProcStruct.blocks
    rw [if_pos h0]
    rfl
  have hargs : ∀ q ∈ (if (pm.mem p).argvKernel ≠ 0 then
      ((pm.mem p).argv.take (pm.mem p).argc).filter (· ≠ 0) ++ [(pm.mem p).argvKernel] else []),
      q ∈ (pm.mem p).blocks := fun q hq => List.mem_append_right _ hq
  have hlive : ∀ q, pm.live q = true → q ≠ image →
      Function.update (Function.update pm.live target true) image false q = true := by
    intro q hq hne
    rw [Function.update_of_ne hne]
    rcases em (q = target) with rfl | hne'
    · exact Function.update_self ..
    · rw [Function.update_of_ne hne']
      exact hq
  have himage : pm.live image = true :=
    h.top_live (List.mem_cons_of_mem _ List.mem_cons_self)
  have htarget : Function.update (Function.update pm.live target true) image false target
      = true := by
    have hne : target ≠ image := by
      rintro rfl
      rw [himage] at hfree
      cases hfree
    rw [Function.update_of_ne hne, Function.update_self]
  have hnot : ∀ q ∈ p :: image :: (pm.mem p).blocks, q ≠ target := by
    rintro q hq rfl
    rw [h.top_live hq] at hfree
    cases hfree
  refine h.replaceTop rfl (fun q hq => ?_) rfl (fun q hq => ?_) (fun q hq => ?_) ?_ (fun q hq => ?_)
    h.current (h.saved.2.idle placed_idle p)
  · show ((Function.update pm.mem p { pm.mem p with binaryBase := target }) q).next = _
    rcases em (q = p) with rfl | hne
    · rw [Function.update_self]
      rfl
    · rw [hmem q hne]
      rfl
  · show ((Function.update pm.mem p { pm.mem p with binaryBase := target }) q).blocks = _
    rw [hmem q fun heq => hp (heq ▸ hq)]
  · have hq' : q ∈ Frame.blocks (Function.update pm.mem p { pm.mem p with binaryBase := target })
        ⟨p, .placed⟩ := hq
    rw [hnew, List.mem_cons, List.mem_cons] at hq'
    rcases hq' with rfl | rfl | hq'
    · exact ⟨Or.inl List.mem_cons_self, hlive q (h.top_live List.mem_cons_self) hnd.1.1⟩
    · exact ⟨Or.inr hfree, htarget⟩
    · have hin : q ∈ Frame.blocks pm.mem ⟨p, .loaded image⟩ :=
        List.mem_cons_of_mem _ (List.mem_cons_of_mem _ (hargs q hq'))
      have hne : q ≠ image := by
        rintro rfl
        exact hnd.2.1 (hargs q hq')
      exact ⟨Or.inl hin, hlive q (h.top_live hin) hne⟩
  · show (Frame.blocks (Function.update pm.mem p { pm.mem p with binaryBase := target })
      ⟨p, .placed⟩).Nodup
    rw [hnew, List.nodup_cons, List.nodup_cons, List.mem_cons, not_or]
    refine ⟨⟨hnot p List.mem_cons_self, fun hq => hnd.1.2 (hargs p hq)⟩, fun hq => ?_, ?_⟩
    · exact hnot target (List.mem_cons_of_mem _ (List.mem_cons_of_mem _ (hargs target hq))) rfl
    · exact hnd.2.2.sublist (List.sublist_append_right _ _)
  · have hne : q ≠ image := by
      rintro rfl
      exact h.rest_other hq (List.mem_cons_of_mem _ List.mem_cons_self)
    exact hlive q (h.rest_live hq) hne

theorem Sound.saveArgs {array : Nat} {copies : List Nat} (h : Sound ⟨pm, ⟨p, .placed⟩ :: rest⟩)
    (ha : pm.saveArgs p array copies = some pm') : Sound ⟨pm', ⟨p, .placed⟩ :: rest⟩ := by
  have hp : p ∉ rest.map Frame.proc := fun hmem =>
    h.rest_other (proc_mem_blocksOf hmem) List.mem_cons_self
  have hnd : (p :: (pm.mem p).blocks).Nodup := h.top_nodup
  -- a change of the structure and of the blocks in use
  have hgo : ∀ (live : Nat → Bool) (x : ProcStruct), x.next = (pm.mem p).next →
      (∀ q ∈ x.blocks, (q ∈ (pm.mem p).blocks ∨ pm.live q = false) ∧ live q = true) →
      x.blocks.Nodup → (∀ q, pm.live q = true → live q = true) →
      Sound ⟨(pm.setLive live).store p x, ⟨p, .placed⟩ :: rest⟩ := by
    intro live x hnext hx hxnd hlive
    have hmem : ∀ q, q ≠ p → Function.update pm.mem p x q = pm.mem q :=
      fun q hq => Function.update_of_ne hq _ _
    have hnew : Frame.blocks (Function.update pm.mem p x) ⟨p, .placed⟩ = p :: x.blocks := by
      unfold Frame.blocks
      rw [Function.update_self]
      rfl
    refine h.replaceTop rfl (fun q hq => ?_) rfl (fun q hq => ?_) (fun q hq => ?_) ?_
      (fun q hq => hlive q (h.rest_live hq)) h.current h.saved
    · show (Function.update pm.mem p x q).next = _
      rcases em (q = p) with rfl | hne
      · rw [Function.update_self]
        exact hnext
      · rw [hmem q hne]
        rfl
    · show (Function.update pm.mem p x q).blocks = _
      rw [hmem q fun heq => hp (heq ▸ hq)]
    · have hq' : q ∈ Frame.blocks (Function.update pm.mem p x) ⟨p, .placed⟩ := hq
      rw [hnew] at hq'
      rcases List.mem_cons.mp hq' with rfl | hin
      · exact ⟨Or.inl List.mem_cons_self, hlive q (h.top_live List.mem_cons_self)⟩
      · exact ⟨(hx q hin).1.imp_left (List.mem_cons_of_mem _), (hx q hin).2⟩
    · show (Frame.blocks (Function.update pm.mem p x) ⟨p, .placed⟩).Nodup
      rw [hnew, List.nodup_cons]
      refine ⟨fun hin => ?_, hxnd⟩
      rcases (hx p hin).1 with hold | hfree
      · exact (List.nodup_cons.mp hnd).1 hold
      · rw [h.top_live List.mem_cons_self] at hfree
        cases hfree
  have htop : ∀ q ∈ (pm.mem p).blocks, pm.live q = true := fun q hq =>
    h.top_live (List.mem_cons_of_mem _ hq)
  unfold ProcManager.saveArgs at ha
  split at ha
  · obtain rfl := Option.some.inj ha
    have hsub : ({ pm.mem p with argc := 0 } : ProcStruct).blocks.Sublist (pm.mem p).blocks := by
      unfold ProcStruct.blocks
      dsimp only
      refine List.Sublist.append_left ?_ _
      split
      · exact List.sublist_append_right _ _
      · exact List.Sublist.refl _
    exact hgo pm.live _ rfl (fun q hq => ⟨Or.inl (hsub.subset hq), htop q (hsub.subset hq)⟩)
      ((List.nodup_cons.mp hnd).2.sublist hsub) fun q hq => hq
  · rename_i h0
    obtain ⟨pm₁, hallocs, rfl⟩ := Option.map_eq_some_iff.mp ha
    obtain ⟨hall, hcopies, hkeep, live, rfl⟩ := ProcManager.kmallocs_spec hallocs
    have hfilter : copies.filter (· ≠ 0) = copies := by
      rw [List.filter_eq_self]
      intro q hq
      exact decide_eq_true (hall q (List.mem_cons_of_mem _ hq)).1
    have hnew : ((pm.mem p).withArgs array copies).blocks
          = (if (pm.mem p).binaryBase ≠ 0 then [(pm.mem p).binaryBase] else [])
            ++ (copies ++ [array]) := by
      unfold ProcStruct.blocks ProcStruct.withArgs
      dsimp only
      rw [if_pos h0, List.take_length, hfilter]
    have hbase : ∀ q ∈ (if (pm.mem p).binaryBase ≠ 0 then [(pm.mem p).binaryBase] else []),
        q ∈ (pm.mem p).blocks := fun q hq => List.mem_append_left _ hq
    have hargs : ∀ q ∈ copies ++ [array], q ∈ array :: copies := by
      intro q hq
      rw [List.mem_append, List.mem_singleton] at hq
      exact List.mem_cons.mpr hq.symm
    refine hgo live ((pm.mem p).withArgs array copies) rfl (fun q hq => ?_) ?_ hkeep
    · rw [hnew, List.mem_append] at hq
      rcases hq with hq | hq
      · exact ⟨Or.inl (hbase q hq), hkeep q (htop q (hbase q hq))⟩
      · obtain ⟨-, hfree, hlive⟩ := hall q (hargs q hq)
        exact ⟨Or.inr hfree, hlive⟩
    · rw [hnew, List.nodup_append]
      refine ⟨(List.nodup_cons.mp hnd).2.sublist (List.sublist_append_left _ _), ?_,
        fun q hq q' hq' heq => ?_⟩
      · exact (List.perm_append_singleton array copies).nodup_iff.mpr hcopies
      · have hfree := (hall q' (hargs q' hq')).2.1
        rw [← heq, htop q (hbase q hq)] at hfree
        cases hfree

theorem Sound.entered (h : Sound ⟨pm, ⟨p, .placed⟩ :: rest⟩) :
    Sound ⟨{ pm with currentProcess := p }, ⟨p, .running pm.currentProcess⟩ :: rest⟩ :=
  ⟨h.list, rfl, ⟨fun _ hold => (Phase.running.inj hold) ▸ h.current, h.saved.2⟩, h.live, h.nodup⟩

/-- The entry point returned: the current process is the one there was before. -/
theorem Sound.left {old : Nat} (h : Sound ⟨pm, ⟨p, .running old⟩ :: rest⟩) (code : Int) :
    Sound ⟨{ pm with lastExitCode := code, currentProcess := old }, ⟨p, .placed⟩ :: rest⟩ :=
  ⟨h.list, h.saved.1 old rfl, h.saved.2.idle placed_idle p, h.live, h.nodup⟩

theorem Sound.freeOther (h : c.Sound) (hp : p ∉ c.owned) : Sound { c with pm := c.pm.kfree p } := by
  refine ⟨h.list, h.current, h.saved, fun q hq => ?_, h.nodup⟩
  have hne : q ≠ p := by
    rintro rfl
    exact hp hq
  exact (ProcManager.kfree_live_of_ne hne).trans (h.live q hq)

theorem Sound.writeOther (h : c.Sound) (hp : p ∉ c.stack.map Frame.proc) (x : ProcStruct) :
    Sound { c with pm := c.pm.store p x } := by
  have hmem : ∀ q ∈ c.stack.map Frame.proc, Function.update c.pm.mem p x q = c.pm.mem q := by
    intro q hq
    refine Function.update_of_ne ?_ _ _
    rintro rfl
    exact hp hq
  have hsame := @blocksOf_congr c.pm.mem (Function.update c.pm.mem p x) c.stack
    fun q hq => congrArg _ (hmem q hq)
  have howned : owned { c with pm := c.pm.store p x } = c.owned := hsame
  refine ⟨h.list.congr fun q hq => congrArg ProcStruct.next (hmem q hq), h.current, h.saved, ?_, ?_⟩
  · rw [howned]
    exact h.live
  · rw [howned]
    exact h.nodup

/-- How a step changes the calls under way. -/
inductive Moves : List Frame → List Frame → Prop
  | same (s : List Frame) : Moves s s
  | push (f : Frame) (s : List Frame) : Moves s (f :: s)
  | top (f f' : Frame) (rest : List Frame) : Moves (f :: rest) (f' :: rest)
  | pop (f : Frame) (rest : List Frame) : Moves (f :: rest) rest

theorem loadingCall_eq (h : c.loadingCall = some (p, rest)) : c.stack = ⟨p, .loading⟩ :: rest := by
  unfold loadingCall at h
  split at h
  · rename_i hstack
    cases h
    exact hstack
  · cases h

theorem loadedCall_eq {image : Nat} (h : c.loadedCall = some (p, image, rest)) :
    c.stack = ⟨p, .loaded image⟩ :: rest := by
  unfold loadedCall at h
  split at h
  · rename_i hstack
    cases h
    exact hstack
  · cases h

theorem placedCall_eq (h : c.placedCall = some (p, rest)) : c.stack = ⟨p, .placed⟩ :: rest := by
  unfold placedCall at h
  split at h
  · rename_i hstack
    cases h
    exact hstack
  · cases h

theorem runningCall_eq {old : Nat} (h : c.runningCall = some (p, old, rest)) :
    c.stack = ⟨p, .running old⟩ :: rest := by
  unfold runningCall at h
  split at h
  · rename_i hstack
    cases h
    exact hstack
  · cases h

/-- What every step keeps, and what it does to the calls under way. -/
theorem Sound.step (h : c.Sound) (hs : step e c = some c') :
    c'.Sound ∧ Moves c.stack c'.stack := by
  obtain ⟨pm, stack⟩ := c
  cases e with
  | refused =>
      rw [ProcCalls.step] at hs
      split at hs
      · obtain rfl := Option.some.inj hs
        exact ⟨h, .same _⟩
      · cases hs
  | start p =>
      rw [ProcCalls.step] at hs
      split at hs
      · obtain ⟨pm₁, hp, rfl⟩ := Option.map_eq_some_iff.mp hs
        exact ⟨h.start hp, .push _ _⟩
      · cases hs
  | loadFailed n =>
      obtain ⟨⟨p, rest⟩, hcall, hfin⟩ := Option.bind_eq_some_iff.mp hs
      obtain rfl := loadingCall_eq hcall
      obtain ⟨hsound, hstack⟩ := (h.finish loading_idle).2 n c' hfin
      exact ⟨hsound, hstack ▸ .pop _ _⟩
  | loaded image =>
      obtain ⟨⟨p, rest⟩, hcall, hrun⟩ := Option.bind_eq_some_iff.mp hs
      obtain rfl := loadingCall_eq hcall
      obtain ⟨pm₁, himage, rfl⟩ := Option.map_eq_some_iff.mp hrun
      exact ⟨h.loaded himage, .top _ _ _⟩
  | noMemory n =>
      obtain ⟨⟨p, image, rest⟩, hcall, hfin⟩ := Option.bind_eq_some_iff.mp hs
      obtain rfl := loadedCall_eq hcall
      obtain ⟨hsound, hstack⟩ := (h.unloaded.finish loading_idle).2 n c' hfin
      exact ⟨hsound, hstack ▸ .pop _ _⟩
  | placed target =>
      obtain ⟨⟨p, image, rest⟩, hcall, hrun⟩ := Option.bind_eq_some_iff.mp hs
      obtain rfl := loadedCall_eq hcall
      obtain ⟨pm₁, htarget, rfl⟩ := Option.map_eq_some_iff.mp hrun
      exact ⟨h.placed htarget, .top _ _ _⟩
  | argsFailed copies n =>
      obtain ⟨⟨p, rest⟩, hcall, hrun⟩ := Option.bind_eq_some_iff.mp hs
      obtain rfl := placedCall_eq hcall
      obtain ⟨pm₁, hallocs, hfin⟩ := Option.bind_eq_some_iff.mp hrun
      obtain ⟨-, -, hkeep, live, rfl⟩ := ProcManager.kmallocs_spec hallocs
      have hmore := h.setLive fun q hq => hkeep q (h.live q hq)
      obtain ⟨hsound, hstack⟩ := (hmore.finish placed_idle).2 n c' hfin
      exact ⟨hsound, hstack ▸ .pop _ _⟩
  | argsReady array copies =>
      obtain ⟨⟨p, rest⟩, hcall, hrun⟩ := Option.bind_eq_some_iff.mp hs
      obtain rfl := placedCall_eq hcall
      obtain ⟨pm₁, hargs, rfl⟩ := Option.map_eq_some_iff.mp hrun
      exact ⟨(h.saveArgs hargs).entered, .top _ _ _⟩
  | exited code n =>
      obtain ⟨⟨p, old, rest⟩, hcall, hfin⟩ := Option.bind_eq_some_iff.mp hs
      obtain rfl := runningCall_eq hcall
      obtain ⟨hsound, hstack⟩ := ((h.left code).finish placed_idle).2 n c' hfin
      exact ⟨hsound, hstack ▸ .pop _ _⟩
  | alloc p =>
      obtain ⟨pm₁, hp, rfl⟩ := Option.map_eq_some_iff.mp hs
      obtain ⟨-, -, rfl⟩ := ProcManager.kmalloc_eq hp
      refine ⟨h.setLive fun q hq => ?_, .same _⟩
      rcases em (q = p) with rfl | hne
      · exact Function.update_self ..
      · rw [Function.update_of_ne hne]
        exact h.live q hq
  | free p =>
      rw [ProcCalls.step] at hs
      split at hs
      · cases hs
      · rename_i hp
        obtain rfl := Option.some.inj hs
        exact ⟨h.freeOther hp, .same _⟩
  | write p x =>
      rw [ProcCalls.step] at hs
      split at hs
      · cases hs
      · rename_i hp
        obtain rfl := Option.some.inj hs
        exact ⟨h.writeOther hp x, .same _⟩

theorem Moves.suffix {s s' base : List Frame} (h : Moves s s') (hb : base <:+ s)
    (hlt : base.length < s.length) : base <:+ s' := by
  cases h with
  | same => exact hb
  | push f => exact hb.trans (List.suffix_cons f s)
  | top f f' rest =>
      rcases List.suffix_cons_iff.mp hb with rfl | hrest
      · exact absurd hlt (Nat.lt_irrefl _)
      · exact hrest.trans (List.suffix_cons f' rest)
  | pop f =>
      rcases List.suffix_cons_iff.mp hb with rfl | hrest
      · exact absurd hlt (Nat.lt_irrefl _)
      · exact hrest

/-- Any steps at all. -/
abbrev ProcRun : ProcCalls → ProcCalls → Prop := RunBy ProcCalls.step fun _ _ => True

/-- Steps taken while more than `n` calls are under way. -/
abbrev DeeperRun (n : Nat) : ProcCalls → ProcCalls → Prop :=
  RunBy ProcCalls.step fun c _ => n < c.stack.length

def initial (mem : Nat → ProcStruct) (live : Nat → Bool) : ProcCalls where
  pm :=
    { mem := mem, live := live, processList := 0, currentProcess := 0, nextPid := 1
      lastExitCode := 0 }
  stack := []

theorem initial_sound (mem : Nat → ProcStruct) (live : Nat → Bool) : (initial mem live).Sound :=
  ⟨rfl, rfl, trivial, fun _ hq => absurd hq List.not_mem_nil, List.nodup_nil⟩

theorem ProcRun.sound (h : ProcRun c c') (hc : c.Sound) : c'.Sound :=
  RunBy.invariant (fun _ _ _ hs _ hstep => (hs.step hstep).1) h hc

/-- A program that runs, calls `process_exec` in vain, and calls it again with the same block. -/
def nestedEvents : List ProcEvent :=
  [.start 16, .loaded 32, .placed 48, .argsReady 0 [], .start 32, .loadFailed 0, .refused,
    .alloc 64, .start 32]

def nestedCalls : ProcCalls :=
  (nestedEvents.foldlM (fun c e => ProcCalls.step e c)
    (initial (fun _ => ⟨0, 0, 0, 0, [], 0⟩) fun _ => false)).getD
    (initial (fun _ => ⟨0, 0, 0, 0, [], 0⟩) fun _ => false)

end ProcCalls

end IpoOs
