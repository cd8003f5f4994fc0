import Mathlib.Logic.Relation

/-!
# Runs of a system with labelled calls

A system takes a call in a state and gives the next state, or does not
return (`none`). `RunBy step ok` is a finite sequence of calls each of
which returns and meets the condition `ok` in the state it is made in.
What every such call preserves holds in every state of every run.

`Trace step` is a run that is seen from outside: the list of what each
step shows, a call with its answer for instance. `Trace.refines` is the
rule that a system refines another: if every step of the one, from a
state with the invariant, is a step of the other between the images of
the two states, and shows the same, then every trace of the one is a
trace of the other. Nothing is said of how a step is taken, only of what
it shows, so that the abstract system may be any relation.
`Trace.simulates` is the rule for two systems whose states are related
instead, and for an environment that keeps to its rights: what it may ask
next is said in terms of the abstract state (`InRights`).
-/

namespace IpoOs

variable {S E : Type*} {step : E → S → Option S} {ok ok' : S → E → Prop}

/-- One call that meets the condition. -/
def StepBy (step : E → S → Option S) (ok : S → E → Prop) (s s' : S) : Prop :=
  ∃ e, ok s e ∧ step e s = some s'

/-- A finite sequence of calls that meet the condition. -/
abbrev RunBy (step : E → S → Option S) (ok : S → E → Prop) : S → S → Prop :=
  Relation.ReflTransGen (StepBy step ok)

theorem RunBy.mono (h : ∀ s e, ok s e → ok' s e) {s s' : S} (hr : RunBy step ok s s') :
    RunBy step ok' s s' :=
  Relation.ReflTransGen.mono (fun _ _ ⟨e, he, hs⟩ => ⟨e, h _ e he, hs⟩) s s' hr

theorem RunBy.invariant {Inv : S → Prop}
    (hstep : ∀ s e s', Inv s → ok s e → step e s = some s' → Inv s') {s s' : S}
    (hr : RunBy step ok s s') (h : Inv s) : Inv s' := by
  induction hr with
  | refl => exact h
  | tail _ hs ih =>
      obtain ⟨e, hok, he⟩ := hs
      exact hstep _ e _ ih hok he

theorem RunBy.of_calls {s : S} (cs : List E) {s' : S}
    (h : cs.foldlM (fun s e => step e s) s = some s')
    (hok : ∀ s e, ok s e) : RunBy step ok s s' := by
  induction cs generalizing s with
  | nil =>
      rw [List.foldlM_nil, Option.pure_def, Option.some.injEq] at h
      exact h ▸ Relation.ReflTransGen.refl
  | cons e cs ih =>
      rw [List.foldlM_cons, Option.bind_eq_bind, Option.bind_eq_some_iff] at h
      obtain ⟨t, ht, hrest⟩ := h
      exact Relation.ReflTransGen.head ⟨e, hok s e, ht⟩ (ih hrest)

/-- A call made when the condition holds, and no call otherwise. -/
def checkedStep (step : E → S → Option S) (ok : S → E → Prop) [∀ s e, Decidable (ok s e)] (s : S)
    (e : E) : Option S :=
  if ok s e then step e s else none

/-- A run given by its calls, the condition checked before each of them. -/
theorem RunBy.of_checked [∀ s e, Decidable (ok s e)] {s : S} (cs : List E) {s' : S}
    (h : cs.foldlM (checkedStep step ok) s = some s') : RunBy step ok s s' := by
  induction cs generalizing s with
  | nil =>
      rw [List.foldlM_nil, Option.pure_def, Option.some.injEq] at h
      exact h ▸ Relation.ReflTransGen.refl
  | cons e cs ih =>
      rw [List.foldlM_cons, Option.bind_eq_bind, Option.bind_eq_some_iff] at h
      obtain ⟨t, ht, hrest⟩ := h
      unfold checkedStep at ht
      split at ht
      · rename_i hok
        exact Relation.ReflTransGen.head ⟨e, hok, ht⟩ (ih hrest)
      · cases ht

/-! ## Traces

A label stands for all that is seen of a step. Two systems with the same
labels are compared by the lists of labels that lead from state to state.
-/

section

variable {S T L : Type*} {step : S → L → S → Prop} {step' : T → L → T → Prop}

/-- A sequence of steps, by what each shows. -/
inductive Trace (step : S → L → S → Prop) : S → List L → S → Prop
  | nil (s : S) : Trace step s [] s
  | cons {s s₁ s₂ : S} {l : L} {ls : List L} (h : step s l s₁) (hr : Trace step s₁ ls s₂) :
      Trace step s (l :: ls) s₂

theorem Trace.invariant {P : S → Prop} (hstep : ∀ s l s', P s → step s l s' → P s') {s s' : S}
    {ls : List L} (hr : Trace step s ls s') (h : P s) : P s' := by
  induction hr with
  | nil => exact h
  | cons hs _ ih => exact ih (hstep _ _ _ h hs)

/-- Steps that are steps of another system between the images of the states give the same traces. -/
theorem Trace.refines {f : S → T} {P : S → Prop}
    (hstep : ∀ s l s', P s → step s l s' → P s' ∧ step' (f s) l (f s')) {s s' : S} {ls : List L}
    (hr : Trace step s ls s') (h : P s) : Trace step' (f s) ls (f s') := by
  induction hr with
  | nil => exact .nil _
  | cons hs _ ih =>
      obtain ⟨hinv, hs'⟩ := hstep _ _ _ h hs
      exact .cons hs' (ih hinv)
/-- Each label is in the rights that there are, in whatever state the labels before it lead to. -/
def InRights (step : S → L → S → Prop) (ok : S → L → Prop) : S → List L → Prop
  | _, [] => True
  | s, l :: ls => ok s l ∧ ∀ s', step s l s' → InRights step ok s' ls

/-- Steps that are steps of another system between related states give the same traces, as long as
the labels are in the rights of that system. -/
theorem Trace.simulates {R : S → T → Prop} {ok : T → L → Prop}
    (hstep : ∀ s t l s', R s t → ok t l → step s l s' → ∃ t', step' t l t' ∧ R s' t') {s s' : S}
    {t : T} {ls : List L} (hr : Trace step s ls s') (hls : InRights step' ok t ls) (h : R s t) :
    ∃ t', Trace step' t ls t' ∧ R s' t' := by
  induction hr generalizing t with
  | nil => exact ⟨t, .nil _, h⟩
  | cons hs _ ih =>
      obtain ⟨hok, hrest⟩ := hls
      obtain ⟨t₁, ht, h₁⟩ := hstep _ _ _ _ h hok hs
      obtain ⟨t', htrace, h'⟩ := ih (hrest t₁ ht) h₁
      exact ⟨t', .cons ht htrace, h'⟩

theorem Trace.append {s s₁ s' : S} {ls ls' : List L} (h : Trace step s ls s₁)
    (h' : Trace step s₁ ls' s') : Trace step s (ls ++ ls') s' := by
  induction h with
  | nil => exact h'
  | cons hs _ ih => exact .cons hs (ih h')

/-- A trace given by its labels, where they say which step is taken. -/
theorem Trace.of_next {next : S → L → Option S} (hnext : ∀ s l s', next s l = some s' → step s l s')
    {s s' : S} (ls : List L) (h : ls.foldlM next s = some s') : Trace step s ls s' := by
  induction ls generalizing s with
  | nil =>
      rw [List.foldlM_nil, Option.pure_def, Option.some.injEq] at h
      exact h ▸ .nil s
  | cons l ls ih =>
      rw [List.foldlM_cons, Option.bind_eq_bind, Option.bind_eq_some_iff] at h
      obtain ⟨t, ht, hrest⟩ := h
      exact .cons (hnext _ _ _ ht) (ih hrest)

end

end IpoOs
