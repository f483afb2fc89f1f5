import Mathlib.Tactic

/-! Synchronous circuits: registers that take one step per clock edge, under an environment that
chooses the inputs of each cycle.  `Reachable` is the set of states of all runs, and
`Reachable.invariant` is the induction over a run.  `Reachable.map` transports reachability along a
map from the states of one circuit to those of another, for a component within a composition. -/

namespace AvalonCores.Sync

/-- A circuit with registers `σ` and inputs `ι`.  The environment may apply the input `i` in the
state `s` when `admits s i`. -/
structure Circuit (σ ι : Type*) where
  init : σ → Prop
  admits : σ → ι → Prop
  step : σ → ι → σ

namespace Circuit

variable {σ ι τ κ : Type*}

/-- The states that the circuit takes in some run. -/
inductive Reachable (C : Circuit σ ι) : σ → Prop
  | init {s : σ} : C.init s → Reachable C s
  | step {s : σ} {i : ι} : Reachable C s → C.admits s i → Reachable C (C.step s i)

/-- A property of the initial states that each step from a reachable state preserves holds in
every reachable state. -/
theorem Reachable.invariant {C : Circuit σ ι} {I : σ → Prop} (hInit : ∀ s, C.init s → I s)
    (hStep : ∀ s i, C.Reachable s → I s → C.admits s i → I (C.step s i)) {s : σ}
    (h : C.Reachable s) : I s := by
  induction h with
  | init h => exact hInit _ h
  | step h hi ih => exact hStep _ _ h ih hi

/-- The circuit in an environment that also keeps to `ok`. -/
def restrict (C : Circuit σ ι) (ok : σ → ι → Prop) : Circuit σ ι where
  init := C.init
  admits s i := C.admits s i ∧ ok s i
  step := C.step

theorem Reachable.of_restrict {C : Circuit σ ι} {ok : σ → ι → Prop} {s : σ}
    (h : (C.restrict ok).Reachable s) : C.Reachable s := by
  induction h with
  | init h => exact .init h
  | step _ hi ih => exact ih.step hi.1

/-- The states of a run of `C` map to states of a run of `D`, when `f` maps initial states to
initial states and each admitted step of `C` to an admitted step of `D`. -/
theorem Reachable.map {C : Circuit σ ι} {D : Circuit τ κ} {f : σ → τ} {g : σ → ι → κ}
    (hInit : ∀ s, C.init s → D.init (f s))
    (hAdmits : ∀ s i, C.Reachable s → C.admits s i → D.admits (f s) (g s i))
    (hStep : ∀ s i, C.Reachable s → C.admits s i → f (C.step s i) = D.step (f s) (g s i)) {s : σ}
    (h : C.Reachable s) : D.Reachable (f s) := by
  induction h with
  | init h => exact .init (hInit _ h)
  | step h hi ih =>
    rw [hStep _ _ h hi]
    exact ih.step (hAdmits _ _ h hi)

end Circuit

/-- The state after the inputs `is`, one per clock edge, from `s`. -/
def run {σ ι : Type*} (step : σ → ι → σ) (s : σ) (is : List ι) : σ := is.foldl step s

section Run

variable {σ ι τ : Type*} {step : σ → ι → σ}

@[simp] theorem run_cons (s : σ) (i : ι) (is : List ι) :
    run step s (i :: is) = run step (step s i) is := rfl

/-- A relation between the states of two machines that every common input keeps holds after every
common run. -/
theorem run_related {next : τ → ι → τ} {R : σ → τ → Prop} {ok : ι → Prop}
    (hStep : ∀ s t i, R s t → ok i → R (step s i) (next t i)) {s : σ} {t : τ} (h : R s t) :
    ∀ is : List ι, (∀ i ∈ is, ok i) → R (run step s is) (run next t is)
  | [], _ => h
  | i :: is, hok => run_related hStep (hStep s t i h (hok i (by simp))) is
      fun j hj => hok j (by simp [hj])

/-- `P` holds in every cycle of the run of `C` from `s` with the inputs `is`. -/
def Circuit.Always (C : Circuit σ ι) (P : σ → ι → Prop) : σ → List ι → Prop
  | _, [] => True
  | s, i :: is => P s i ∧ C.Always P (C.step s i) is

def Circuit.decidableAlways (C : Circuit σ ι) (P : σ → ι → Prop) [∀ s i, Decidable (P s i)] :
    ∀ (s : σ) (is : List ι), Decidable (C.Always P s is)
  | _, [] => .isTrue trivial
  | s, i :: is =>
    @instDecidableAnd (P s i) (C.Always P (C.step s i) is) _ (C.decidableAlways P (C.step s i) is)

instance {C : Circuit σ ι} {P : σ → ι → Prop} [∀ s i, Decidable (P s i)] (s : σ) (is : List ι) :
    Decidable (C.Always P s is) := C.decidableAlways P s is

/-- The environment of `C` may apply the inputs `is` one after the other from `s`. -/
abbrev Circuit.Admitted (C : Circuit σ ι) : σ → List ι → Prop := C.Always C.admits

theorem Circuit.Reachable.run {C : Circuit σ ι} {s : σ} (h : C.Reachable s) :
    ∀ is : List ι, C.Admitted s is → C.Reachable (run C.step s is)
  | [], _ => h
  | _ :: is, hi => (h.step hi.1).run is hi.2

/-- Conditions that agree in the admitted cycles of reachable states agree over admitted runs. -/
theorem Circuit.Reachable.always_congr {C : Circuit σ ι} {P Q : σ → ι → Prop} {s : σ}
    (hPQ : ∀ s i, C.Reachable s → C.admits s i → (P s i ↔ Q s i)) (h : C.Reachable s) :
    ∀ is : List ι, C.Admitted s is → (C.Always P s is ↔ C.Always Q s is)
  | [], _ => Iff.rfl
  | i :: is, hi => and_congr (hPQ s i h hi.1) (always_congr hPQ (h.step hi.1) is hi.2)

end Run

/-- What a run shows of its states is the fold of its events, when a cycle without an event changes
nothing of it and keeps the invariant `I`, as each event does that `ok` admits. -/
theorem run_events {σ ι ρ ε : Type*} {step : σ → ι → σ} {event : ι → Option ε} {view : σ → ρ}
    {next : ρ → ε → ρ} {I : σ → Prop} {ok : ε → Prop}
    (hidle : ∀ s i, I s → event i = none → I (step s i) ∧ view (step s i) = view s)
    (hevent : ∀ s i x, I s → event i = some x → ok x →
      I (step s i) ∧ view (step s i) = next (view s) x)
    {s : σ} (hs : I s) {is : List ι} (hok : ∀ x ∈ is.filterMap event, ok x) :
    I (run step s is) ∧ view (run step s is) = (is.filterMap event).foldl next (view s) := by
  induction is generalizing s with
  | nil => exact ⟨hs, rfl⟩
  | cons i is ih =>
    rw [run_cons]
    cases hi : event i with
    | none =>
      rw [List.filterMap_cons_none hi] at hok ⊢
      obtain ⟨hinv, hview⟩ := hidle s i hs hi
      rw [← hview]
      exact ih hinv hok
    | some x =>
      rw [List.filterMap_cons_some hi] at hok ⊢
      obtain ⟨hinv, hview⟩ := hevent s i x hs hi (hok x List.mem_cons_self)
      rw [List.foldl_cons, ← hview]
      exact ih hinv fun y hy => hok y (List.mem_cons_of_mem x hy)

end AvalonCores.Sync
