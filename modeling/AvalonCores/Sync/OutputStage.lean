import Mathlib.Tactic
import AvalonCores.Sync.Execution

/-! The output register of a stream, which holds one word until the sink takes it.  A word may enter
in a cycle in which the register is empty or gives up its word.  `Streams.conservation` accounts for
the words that have entered and left in a run. -/

namespace AvalonCores.Sync

structure OutputStage (α : Type*) where
  data : α
  valid : Bool
deriving DecidableEq, Repr

namespace OutputStage

variable {α : Type*} (o : OutputStage α)

/-- The register is empty, or the sink takes what it holds. -/
def accepts (ready : Bool) : Bool := !o.valid || ready

def delivers (ready : Bool) : Bool := o.valid && ready

/-- The word that the sink has not taken yet. -/
def held : List α := if o.valid then [o.data] else []

/-- The register after a cycle in which `x` enters when `enable` is set. -/
def next (ready enable : Bool) (x : α) : OutputStage α where
  data := if enable then x else o.data
  valid := if o.accepts ready then enable else o.valid

variable {o}

theorem held_length_le : o.held.length ≤ 1 := by
  unfold held
  split <;> simp

/-- What was held or enters is given up or held afterwards. -/
theorem held_next {ready enable : Bool} (h : enable = true → o.accepts ready = true) (x : α) :
    o.held ++ (if enable then [x] else []) =
      (if o.delivers ready then [o.data] else []) ++ (o.next ready enable x).held := by
  cases hv : o.valid with
  | false => cases enable <;> simp [held, delivers, next, accepts, hv]
  | true =>
    cases ready with
    | false =>
      have : enable = false := by simpa [accepts, hv] using h
      simp [held, delivers, next, accepts, hv, this]
    | true => cases enable <;> simp [held, delivers, next, accepts, hv]

/-- A word that the sink does not take stays. -/
theorem next_of_stalled {enable : Bool} (hv : o.valid = true)
    (h : enable = true → o.accepts false = true) (x : α) : o.next false enable x = o := by
  have hopen : o.accepts false = false := by simp [accepts, hv]
  have henable : enable = false := by simpa [hopen] using h
  simp [next, hopen, henable]

/-- After a cycle, the register holds a word that has just entered or that the sink leaves. -/
theorem next_valid {ready enable : Bool} (h : enable = true → o.accepts ready = true) (x : α) :
    (o.next ready enable x).valid = (enable || o.valid && !ready) := by
  cases hv : o.valid <;> cases ready <;> cases enable <;> simp_all [next, accepts]

/-- The register in each cycle of a run, with the sink's ready signal and with the words `x` that
enter in the cycles of `enable`. -/
structure Streams (o : ℕ → OutputStage α) (ready enable : ℕ → Bool) (x : ℕ → α) : Prop where
  empty : (o 0).valid = false
  allowed : ∀ t, enable t = true → (o t).accepts (ready t) = true
  next : ∀ t, o (t + 1) = (o t).next (ready t) (enable t) (x t)

namespace Streams

variable {o : ℕ → OutputStage α} {ready enable : ℕ → Bool} {x : ℕ → α}

/-- The words that have left, and the one that is held, are the words that have entered. -/
theorem conservation (h : Streams o ready enable x) (t : ℕ) :
    collected enable x t =
      collected (fun t => (o t).delivers (ready t)) (fun t => (o t).data) t ++ (o t).held := by
  induction t with
  | zero => simp [collected, held, h.empty]
  | succ t ih =>
    rw [collected_succ, collected_succ, ih, List.append_assoc, List.append_assoc, h.next,
      held_next (h.allowed t)]

/-- All words that have entered but at most the last one have left, in order. -/
theorem delivered (h : Streams o ready enable x) (t : ℕ) :
    ∃ rest, collected enable x t =
      collected (fun t => (o t).delivers (ready t)) (fun t => (o t).data) t ++ rest ∧
        rest.length ≤ 1 :=
  ⟨(o t).held, h.conservation t, held_length_le⟩

/-- A word stays at the output until the sink is ready. -/
theorem stable (h : Streams o ready enable x) {t : ℕ} (hv : (o t).valid = true) (d : ℕ)
    (hstall : ∀ u, t ≤ u → u < t + d → ready u = false) : o (t + d) = o t := by
  induction d with
  | zero => rfl
  | succ d ih =>
    have hd : o (t + d) = o t := ih fun u hu hud => hstall u hu (by omega)
    have hready : ready (t + d) = false := hstall (t + d) (by omega) (by omega)
    have hallowed := h.allowed (t + d)
    rw [hready] at hallowed
    rw [← Nat.add_assoc, h.next, hready, next_of_stalled (by rw [hd, hv]) hallowed, hd]

theorem presents (h : Streams o ready enable x) {t : ℕ} (hv : (o t).valid = true) (d : ℕ)
    (hstall : ∀ u, t ≤ u → u < t + d → ready u = false) :
    (o (t + d)).valid = true ∧ (o (t + d)).data = (o t).data := by
  rw [h.stable hv d hstall]
  exact ⟨hv, rfl⟩

end Streams

end OutputStage

end AvalonCores.Sync
