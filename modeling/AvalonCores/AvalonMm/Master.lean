import Mathlib.Tactic
import AvalonCores.Sync.Execution

/-! The example master `avalon_mm_master`.  Its combinational block assigns the outputs in some of
its branches only, so that each output is a latch that holds what the branch leaves out. -/

namespace AvalonCores.AvalonMm.Master

open Sync

/-- The values of the state register.  `unused` is 2'b11, the default branch. -/
inductive Phase
  | idle
  | wait
  | done
  | unused
deriving DecidableEq, Repr

/-- The latches of the combinational block. -/
structure Outputs where
  address : BitVec 32
  begintransfer : Bool
  byteEnable : BitVec 4
  read : Bool
  write : Bool
  writedata : BitVec 32
  lock : Bool
  burstcount : Bool
  dataRead : BitVec 32
deriving DecidableEq, Repr

/-- The state register, and what the latches held at the end of the last cycle. -/
structure State where
  state : Phase
  latched : Outputs
deriving DecidableEq, Repr

structure Inputs where
  reset : Bool
  readdata : BitVec 32
  waitrequest : Bool
  dataToWrite : BitVec 32
  rnw : Bool
  start : Bool
  bytes : BitVec 4
  addressToAccess : BitVec 32
deriving DecidableEq, Repr

/-- What the reset and the idle branches drive.  They leave `BYTE_ENABLE` as it is. -/
def Outputs.clear (o : Outputs) : Outputs := ⟨0#_, false, o.byteEnable, false, false, 0#_, false,
  false, 0#_⟩

variable (s : State) (i : Inputs)

def done : Bool := s.state == .done

/-- The request of a start: a write also drives `WRITEDATA`. -/
def Outputs.request (o : Outputs) : Outputs :=
  { o with
    address := i.addressToAccess
    byteEnable := i.bytes
    read := i.rnw
    write := !i.rnw
    writedata := if i.rnw then o.writedata else i.dataToWrite }

/-- What the latches drive in a cycle. -/
def outputs : Outputs :=
  if i.reset then s.latched.clear
  else match s.state with
    | .idle => if i.start then s.latched.request i else s.latched.clear
    | .wait => s.latched
    | .done => if i.rnw then { s.latched with dataRead := i.readdata } else s.latched
    | .unused => s.latched.clear

def nextState : Phase :=
  if i.reset then .idle
  else match s.state with
    | .idle => if i.start then (if i.waitrequest then .wait else .done) else .idle
    | .wait => if i.waitrequest then .wait else .done
    | .done => .idle
    | .unused => .idle

def step : State := ⟨nextState s i, outputs s i⟩

/-- The master takes a request. -/
def starts : Bool := !i.reset && s.state == .idle && i.start

/-- The bus performs an access. -/
def busCycle : Bool := ((outputs s i).read || (outputs s i).write) && !i.waitrequest

/-- The outputs present the request of the start in whose cycle the inputs were `i`. -/
structure Outputs.Carries (o : Outputs) (i : Inputs) : Prop where
  address : o.address = i.addressToAccess
  byteEnable : o.byteEnable = i.bytes
  read : o.read = i.rnw
  write : o.write = !i.rnw
  writedata : i.rnw = false → o.writedata = i.dataToWrite

theorem Outputs.Carries.busCycle {s : State} {i j : Inputs} (h : (outputs s i).Carries j) :
    busCycle s i = !i.waitrequest := by
  simp [Master.busCycle, h.read, h.write]

variable {s i}

theorem starts_iff (hi : i.reset = false) :
    starts s i = true ↔ s.state = .idle ∧ i.start = true := by
  simp [starts, hi]

theorem outputs_of_starts (h : starts s i = true) : outputs s i = s.latched.request i := by
  obtain ⟨⟨hreset, hidle⟩, hstart⟩ : (i.reset = false ∧ s.state = .idle) ∧ i.start = true := by
    simpa [starts] using h
  simp [outputs, hreset, hidle, hstart]

theorem carries_of_starts (h : starts s i = true) : (outputs s i).Carries i := by
  rw [outputs_of_starts h]
  constructor <;> simp +contextual [Outputs.request]

/-- While the master waits and when it is done, the latches hold the request. -/
theorem carries_of_latched {j : Inputs} (hi : i.reset = false)
    (hs : s.state = .wait ∨ s.state = .done) (h : s.latched.Carries j) :
    (outputs s i).Carries j := by
  rcases hs with hs | hs
  · simpa [outputs, hi, hs] using h
  · cases hr : i.rnw
    · simpa [outputs, hi, hs, hr] using h
    · simp only [outputs, hi, hs, hr, if_true, Bool.false_eq_true, if_false]
      exact ⟨h.address, h.byteEnable, h.read, h.write, h.writedata⟩

/-- A start that has not been taken leaves the bus alone. -/
theorem busCycle_of_idle (hs : s.state = .idle) (h : starts s i = false) :
    busCycle s i = false := by
  cases hr : i.reset <;> simp_all [busCycle, outputs, starts, Outputs.clear]

/-- The master from its reset on, without another one. -/
def circuit : Circuit State Inputs where
  init s := ∃ t i, i.reset = true ∧ s = step t i
  admits _ i := i.reset = false
  step := step

/-- Cycle `m` is that of the start in cycle `n` or a later one, before the next start. -/
structure Within (st : ℕ → State) (i : ℕ → Inputs) (n m : ℕ) : Prop where
  le : n ≤ m
  taken : starts (st n) (i n) = true
  last : ∀ k, n < k → k ≤ m → starts (st k) (i k) = false

/-- Each start has exactly one bus cycle, and each bus cycle carries the request of the start that
it belongs to. -/
structure ExactlyOnce (st : ℕ → State) (i : ℕ → Inputs) : Prop where
  once : ∀ n, starts (st n) (i n) = true → ∃! m, Within st i n m ∧ busCycle (st m) (i m) = true
  owned : ∀ m, busCycle (st m) (i m) = true →
    ∃ n, Within st i n m ∧ (outputs (st m) (i m)).Carries (i n)

section Execution

variable {st : ℕ → State} {i : ℕ → Inputs} {n m : ℕ}

/-- The master has taken the request of cycle `n` and has not been idle since. -/
structure Serving (st : ℕ → State) (i : ℕ → Inputs) (n m : ℕ) : Prop where
  lt : n < m
  taken : starts (st n) (i n) = true
  busy : ∀ k, n < k → k ≤ m → (st k).state = .wait ∨ (st k).state = .done
  carries : (st m).latched.Carries (i n)

theorem Serving.within (h : Serving st i n m) : Within st i n m where
  le := h.lt.le
  taken := h.taken
  last k hk hkm := by rcases h.busy k hk hkm with hs | hs <;> simp [starts, hs]

/-- The master goes on serving unless it is done. -/
theorem Serving.next (he : circuit.Execution st i) (h : Serving st i n m)
    (hs : (st m).state = .wait) : Serving st i n (m + 1) where
  lt := h.lt.trans (Nat.lt_succ_self m)
  taken := h.taken
  busy k hk hkm := by
    rcases Nat.le_succ_iff.mp hkm with hle | rfl
    · exact h.busy k hk hle
    · have hreset : (i m).reset = false := he.admits m
      rw [he.step]
      cases hw : (i m).waitrequest <;> simp [circuit, step, nextState, hreset, hs, hw]
  carries := by
    rw [he.step]
    exact carries_of_latched (he.admits m) (.inl hs) h.carries

/-- The master is idle or serves the last start. -/
theorem idle_or_serving (he : circuit.Execution st i) (m : ℕ) :
    (st m).state = .idle ∨ ∃ n, Serving st i n m := by
  induction m with
  | zero =>
    obtain ⟨t, j, hj, hst⟩ := he.init
    exact .inl (by simp [hst, step, nextState, hj])
  | succ m ih =>
    have hreset : (i m).reset = false := he.admits m
    rcases ih with hidle | ⟨n, hserving⟩
    · cases hstart : starts (st m) (i m) with
      | false =>
        left
        have : (i m).start = false := by simpa [starts, hreset, hidle] using hstart
        simp [he.step, circuit, step, nextState, hreset, hidle, this]
      | true =>
        refine .inr ⟨m, Nat.lt_succ_self m, hstart, fun k hk hkm => ?_, ?_⟩
        · obtain rfl : k = m + 1 := by omega
          have hi : (i m).start = true := ((starts_iff hreset).mp hstart).2
          rw [he.step]
          cases hw : (i m).waitrequest <;>
            simp [circuit, step, nextState, hreset, hidle, hi, hw]
        · rw [he.step]
          exact carries_of_starts hstart
    · rcases hserving.busy m hserving.lt le_rfl with hs | hs
      · exact .inr ⟨n, hserving.next he hs⟩
      · left
        simp [he.step, circuit, step, nextState, hreset, hs]

/-- A bus cycle carries the request of the last start, since which the master has not been idle. -/
theorem owner (he : circuit.Execution st i) (hm : busCycle (st m) (i m) = true) :
    ∃ n, Within st i n m ∧ (outputs (st m) (i m)).Carries (i n) ∧
      ∀ k, n < k → k ≤ m → (st k).state ≠ .idle := by
  rcases idle_or_serving he m with hidle | ⟨n, hserving⟩
  · cases hstart : starts (st m) (i m) with
    | false => simp [busCycle_of_idle hidle hstart] at hm
    | true =>
      exact ⟨m, ⟨le_rfl, hstart, fun k hk hkm => by omega⟩, carries_of_starts hstart,
        fun k hk hkm => by omega⟩
  · refine ⟨n, hserving.within, ?_, fun k hk hkm => ?_⟩
    · exact carries_of_latched (he.admits m) (hserving.busy m hserving.lt le_rfl) hserving.carries
    · rcases hserving.busy k hk hkm with hs | hs <;> simp [hs]

/-- Two starts with a common cycle are one. -/
theorem Within.unique {n' : ℕ} (h : Within st i n m) (h' : Within st i n' m) : n = n' := by
  rcases Nat.lt_trichotomy n n' with hlt | heq | hlt
  · have := h.last n' hlt h'.le
    rw [h'.taken] at this
    contradiction
  · exact heq
  · have := h'.last n hlt h.le
    rw [h.taken] at this
    contradiction

/-- A stalled request leaves the latches alone. -/
theorem wait_of_stalls (hstep : ∀ n, st (n + 1) = step (st n) (i n))
    (hn : starts (st n) (i n) = true) (d : ℕ)
    (hreset : ∀ m, n ≤ m → m ≤ n + d → (i m).reset = false)
    (hw : ∀ m, n ≤ m → m ≤ n + d → (i m).waitrequest = true) :
    st (n + d + 1) = ⟨.wait, outputs (st n) (i n)⟩ := by
  induction d with
  | zero =>
    obtain ⟨hidle, hstart⟩ := (starts_iff (hreset n le_rfl le_rfl)).mp hn
    simp [hstep, step, nextState, hreset n le_rfl le_rfl, hidle, hstart, hw n le_rfl le_rfl]
  | succ d ih =>
    have hwait := ih (fun m hm hmd => hreset m hm (by omega)) fun m hm hmd => hw m hm (by omega)
    have hr := hreset (n + d + 1) (by omega) (by omega)
    rw [← Nat.add_assoc, hstep, hwait]
    simp [step, nextState, outputs, hr, hw (n + d + 1) (by omega) (by omega)]

/-- The master waits until the slave accepts the request. -/
theorem wait_of_waitrequest (he : circuit.Execution st i) (hn : starts (st n) (i n) = true) (d : ℕ)
    (hw : ∀ k, n ≤ k → k ≤ n + d → (i k).waitrequest = true) : (st (n + d + 1)).state = .wait := by
  rw [wait_of_stalls he.step hn d (fun m _ _ => he.admits m) hw]

theorem busCycle_of_wait (he : circuit.Execution st i) (hs : (st m).state = .wait) :
    busCycle (st m) (i m) = !(i m).waitrequest := by
  rcases idle_or_serving he m with hidle | ⟨n, hserving⟩
  · simp [hidle] at hs
  · exact (carries_of_latched (he.admits m) (.inl hs) hserving.carries).busCycle

theorem idle_of_done (he : circuit.Execution st i) (hs : (st m).state = .done) :
    (st (m + 1)).state = .idle := by
  have hreset : (i m).reset = false := he.admits m
  simp [he.step, circuit, step, nextState, hreset, hs]

/-- The cycle in which the slave accepts the request is a bus cycle of its start, after which the
master is done. -/
theorem accepted (he : circuit.Execution st i) (hn : starts (st n) (i n) = true) (hnm : n ≤ m)
    (hm : (i m).waitrequest = false) (hw : ∀ k, n ≤ k → k < m → (i k).waitrequest = true) :
    (Within st i n m ∧ busCycle (st m) (i m) = true) ∧ (st (m + 1)).state = .done := by
  have hreset : (i m).reset = false := he.admits m
  have hwait : ∀ k, n < k → k ≤ m → (st k).state = .wait := by
    intro k hk hkm
    obtain ⟨d, rfl⟩ := Nat.exists_eq_add_of_lt hk
    exact wait_of_waitrequest he hn d fun j hj hjd => hw j hj (by omega)
  have hwithin : Within st i n m :=
    ⟨hnm, hn, fun k hk hkm => by simp [starts, hwait k hk hkm]⟩
  rcases Nat.eq_or_lt_of_le hnm with rfl | hlt
  · obtain ⟨hidle, hstart⟩ := (starts_iff hreset).mp hn
    refine ⟨⟨hwithin, ?_⟩, ?_⟩
    · rw [(carries_of_starts hn).busCycle, hm, Bool.not_false]
    · simp [he.step, circuit, step, nextState, hreset, hidle, hstart, hm]
  · have hs := hwait m hlt le_rfl
    refine ⟨⟨hwithin, ?_⟩, ?_⟩
    · rw [busCycle_of_wait he hs, hm, Bool.not_false]
    · simp [he.step, circuit, step, nextState, hreset, hs, hm]

/-- The cycle before the master is done is a bus cycle. -/
theorem busCycle_before_done (he : circuit.Execution st i) (h : Serving st i n (m + 1))
    (hs : (st (m + 1)).state = .done) : Within st i n m ∧ busCycle (st m) (i m) = true := by
  have hreset : (i m).reset = false := he.admits m
  have hnm : n ≤ m := Nat.lt_succ_iff.mp h.lt
  refine ⟨⟨hnm, h.taken, fun k hk hkm => h.within.last k hk (by omega)⟩, ?_⟩
  rcases Nat.eq_or_lt_of_le hnm with rfl | hlt
  · obtain ⟨hidle, hstart⟩ := (starts_iff hreset).mp h.taken
    rw [(carries_of_starts h.taken).busCycle]
    cases hw : (i n).waitrequest with
    | false => rfl
    | true => simp [he.step, circuit, step, nextState, hreset, hidle, hstart, hw] at hs
  · rcases h.busy m hlt (Nat.le_succ m) with hwait | hdone
    · rw [busCycle_of_wait he hwait]
      cases hw : (i m).waitrequest with
      | false => rfl
      | true => simp [he.step, circuit, step, nextState, hreset, hwait, hw] at hs
    · rw [idle_of_done he hdone] at hs
      contradiction

/-- The slave accepts each request at some time, and keeps `WAITREQUEST` high while the master is
done. -/
structure Released (st : ℕ → State) (i : ℕ → Inputs) : Prop where
  accepts : ∀ n, starts (st n) (i n) = true → ∃ m, n ≤ m ∧ (i m).waitrequest = false
  stalls : ∀ n, done (st n) = true → (i n).waitrequest = true

theorem Released.exactlyOnce (he : circuit.Execution st i) (h : Released st i) :
    ExactlyOnce st i where
  once n hn := by
    -- The first cycle from the start on in which the slave does not stall is the only bus cycle.
    have hex := h.accepts n hn
    obtain ⟨hle, hfirst⟩ := Nat.find_spec hex
    have hw : ∀ k, n ≤ k → k < Nat.find hex → (i k).waitrequest = true := by
      intro k hk hlt
      have := Nat.find_min hex hlt
      simpa [hk] using this
    obtain ⟨hcycle, hdone⟩ := accepted he hn hle hfirst hw
    refine ⟨Nat.find hex, hcycle, fun m hm => ?_⟩
    obtain ⟨hwithin, hbus⟩ := hm
    have hbusy : (i m).waitrequest = false := by
      simp only [busCycle, Bool.and_eq_true, Bool.not_eq_true'] at hbus
      exact hbus.2
    have hge : Nat.find hex ≤ m := Nat.find_min' hex ⟨hwithin.le, hbusy⟩
    by_contra hne
    obtain ⟨n', hwithin', -, hnidle⟩ := owner he hbus
    obtain rfl := hwithin.unique hwithin'
    have hnotnext : m ≠ Nat.find hex + 1 := by
      rintro rfl
      have := h.stalls (Nat.find hex + 1) (by simp [done, hdone])
      rw [hbusy] at this
      contradiction
    exact hnidle (Nat.find hex + 2) (by omega) (by omega) (idle_of_done he hdone)
  owned m hm := by
    obtain ⟨n, hwithin, hcarries, -⟩ := owner he hm
    exact ⟨n, hwithin, hcarries⟩

/-- A request that is still on the bus when the master is done is accepted a second time. -/
theorem ExactlyOnce.released (he : circuit.Execution st i) (h : ExactlyOnce st i) :
    Released st i where
  accepts n hn := by
    obtain ⟨m, ⟨hwithin, hbus⟩, -⟩ := h.once n hn
    simp only [busCycle, Bool.and_eq_true, Bool.not_eq_true'] at hbus
    exact ⟨m, hwithin.le, hbus.2⟩
  stalls m hm := by
    have hs : (st m).state = .done := by simpa [done] using hm
    rcases idle_or_serving he m with hidle | ⟨n, hserving⟩
    · simp [hidle] at hs
    · by_contra hw
      have hcarries := carries_of_latched (he.admits m) (.inr hs) hserving.carries
      have hsecond : busCycle (st m) (i m) = true := by
        rw [hcarries.busCycle]
        simpa using hw
      obtain ⟨m, rfl⟩ := Nat.exists_eq_succ_of_ne_zero (Nat.ne_zero_of_lt hserving.lt)
      have hfirst := busCycle_before_done he hserving hs
      have := (h.once n hserving.taken).unique hfirst ⟨hserving.within, hsecond⟩
      omega

/-- The master performs each transfer once if and only if the slave accepts every request and then
stalls the repetition of it. -/
theorem exactlyOnce_iff (he : circuit.Execution st i) : ExactlyOnce st i ↔ Released st i :=
  ⟨fun h => h.released he, fun h => h.exactlyOnce he⟩

end Execution

/-- The state after a reset that `BYTE_ENABLE` has never been assigned before. -/
def afterReset : State := ⟨.idle, ⟨0#_, false, 0#_, false, false, 0#_, false, false, 0#_⟩⟩

/-- The write of the testbench, in cycle 0, to a slave that raises `WAITREQUEST` as `stall` says. -/
def singleWrite (stall : ℕ → Bool) (n : ℕ) : Inputs where
  reset := false
  readdata := 0#_
  waitrequest := stall n
  dataToWrite := 0xABCD1234#_
  rnw := false
  start := n == 0
  bytes := 0xF#_
  addressToAccess := 4#_

theorem execution_singleWrite (stall : ℕ → Bool) :
    circuit.Execution (trajectory step afterReset (singleWrite stall)) (singleWrite stall) := by
  refine Circuit.execution_trajectory ?_ fun _ _ => rfl
  exact ⟨afterReset, { singleWrite stall 0 with reset := true }, rfl, rfl⟩

/-- A slave that never stalls, as `avalon_slave` never does, performs the write twice. -/
theorem not_exactlyOnce_singleWrite :
    circuit.Execution (trajectory step afterReset (singleWrite fun _ => false))
        (singleWrite fun _ => false) ∧
      ¬ ExactlyOnce (trajectory step afterReset (singleWrite fun _ => false))
        (singleWrite fun _ => false) := by
  have he := execution_singleWrite fun _ => false
  refine ⟨he, fun h => ?_⟩
  have := (h.released he).stalls 1 (by decide)
  contradiction

/-- A slave that stalls from the cycle after the write on performs it once. -/
theorem exactlyOnce_singleWrite :
    ExactlyOnce (trajectory step afterReset (singleWrite (· != 0))) (singleWrite (· != 0)) := by
  refine (exactlyOnce_iff (execution_singleWrite _)).mpr ⟨fun n hn => ?_, fun n hn => ?_⟩
  · cases n with
    | zero => exact ⟨0, le_rfl, rfl⟩
    | succ n => simp [starts, singleWrite] at hn
  · cases n with
    | zero => exact absurd hn (by decide)
    | succ n => rfl

end AvalonCores.AvalonMm.Master
