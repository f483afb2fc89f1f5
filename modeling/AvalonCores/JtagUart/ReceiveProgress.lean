import Mathlib.Tactic
import AvalonCores.JtagUart.Progress

/-! Each byte that the core has taken from the host comes to the application in the end, if
interrupts are served, the application reads again and again, and the host makes pauses. -/

namespace AvalonCores.JtagUart

open Filter Sync Sync.RingBuffer

/-- The bytes that the processor has read from the core. -/
def State.taken (s : State) : List (BitVec 8) := s.read ++ s.rxRing

/-- What is left to do at each place before bytes are taken from the buffer.  At `loadIn` and
`loadOut` the call goes a long way round if it misses the bytes in the buffer. -/
def ReadCall.variant (c : ReadCall) (sp : UartState) : ℕ :=
  match c.pc with
  | .copy => c.n - c.copied.length
  | .loadOut => if c.rxIn = sp.rxOut then bufLen + 12 else bufLen + 2
  | .loadIn => if sp.rxIn = sp.rxOut then bufLen + 13 else bufLen + 3
  | .outer => bufLen + 4
  | .returned _ => bufLen + 6
  | .finish => bufLen + 7
  | .recheck => bufLen + 8
  | .spin => bufLen + 9
  | .spinHost => bufLen + 10
  | .check => bufLen + 11

/-- What is left to do, with the next call to begin when there is none. -/
def State.readVariant (s : State) : ℕ :=
  (s.reader.map fun c => c.variant s.machine.sp).getD (bufLen + 5)

/-- A call asks for a byte at least, and begins with none. -/
def ReadCall.Asks (c : ReadCall) : Prop := 0 < c.request ∧ (c.pc = .outer → c.bytes = [])

namespace Inv

variable {s : State} {rx tx : List (BitVec 8)} {a : Action} {x z : Core.Host} {c : ReadCall}

/-- A step of a call when there is something for it to do. -/
theorem reader_leads (h : Inv s rx tx) (hc : s.reader = some c) (hasks : c.Asks)
    (hready : rx ≠ [] ∨ c.bytes ≠ []) :
    s.read.length < (s.step (.reader x z)).read.length ∨
      (s.step (.reader x z)).readVariant < s.readVariant := by
  have hknows := h.reader c hc
  have hlength := hknows.length
  have hhere := hknows.here
  have hempty := h.rxQueue.empty_iff
  have hhead := h.rxQueue.head_lt
  -- A call that has no bytes yet finds some in the buffer.
  have hfilled (hbytes : c.bytes = []) : s.machine.sp.rxOut ≠ s.machine.sp.rxIn := fun heq =>
    hready.elim (fun hne => hne (hempty.mp heq)) fun hne => hne hbytes
  cases hpc : c.pc <;> rw [hpc] at hhere <;>
    simp only [State.step, hc, hpc, ReadCall.step]
  case outer =>
    have hnil := hasks.2 hpc
    have hspace : 0 < c.space := by
      have := hasks.1
      rw [hnil] at hlength
      simp at hlength
      omega
    have hrx := (hfilled hnil).symm
    right
    simp only [if_pos hspace, State.readVariant, hc, Option.map_some, Option.getD_some,
      ReadCall.variant, hpc, if_neg hrx]
    omega
  case loadIn =>
    right
    simp only [State.readVariant, hc, Option.map_some, Option.getD_some, ReadCall.variant, hpc]
    split_ifs <;> omega
  case loadOut =>
    obtain ⟨⟨hcopied, hspace⟩, k, hle, hin⟩ := hhere
    have hroom := h.rxQueue.room
    have hn := run_of_consumer (k := k) hhead (by simp at hroom; omega)
    rw [← hin] at hn
    right
    simp only [hn, State.readVariant, hc, Option.map_some, Option.getD_some, ReadCall.variant, hpc]
    by_cases hmiss : c.rxIn = s.machine.sp.rxOut
    · obtain rfl : k = 0 := by
        have h0 := slot_inj hhead (by simp at hroom; omega) (by omega)
          ((slot_zero hhead).trans (hmiss.symm.trans hin))
        exact h0.symm
      simp only [Nat.zero_min, if_true, if_pos hmiss]
      omega
    · have hpos : min k (bufLen - s.machine.sp.rxOut) ≠ 0 := by
        intro h0
        obtain rfl : k = 0 := by omega
        exact hmiss (hin.trans (slot_zero hhead))
      simp only [if_neg hpos, if_neg hmiss, hcopied, List.length_nil]
      split_ifs <;> omega
  case copy =>
    obtain ⟨⟨hn, -, -⟩, -, k, hk, hcopied⟩ := hhere
    by_cases hmore : c.copied.length < c.n
    · right
      simp only [if_pos hmore, State.readVariant, hc, Option.map_some, Option.getD_some,
        ReadCall.variant, hpc, List.length_append, List.length_singleton]
      omega
    · left
      simp only [if_neg hmore, State.read, hc, Option.map_some, Option.getD_some,
        List.length_append]
      omega
  case check =>
    right
    simp only [State.readVariant, hc, Option.map_some, Option.getD_some, ReadCall.variant, hpc]
    split_ifs <;> simp only <;> omega
  case spin =>
    have hne : c.rxIn ≠ s.machine.sp.rxIn := by
      rw [hhere.2.2]
      exact hfilled hhere.2.1
    right
    simp only [if_neg hne, State.readVariant, hc, Option.map_some, Option.getD_some,
      ReadCall.variant, hpc]
    omega
  case spinHost =>
    right
    simp only [State.readVariant, hc, Option.map_some, Option.getD_some, ReadCall.variant, hpc]
    split_ifs <;> simp only <;> omega
  case recheck =>
    have hne : c.rxIn ≠ s.machine.sp.rxIn := by
      rw [hhere.2.2]
      exact hfilled hhere.2.1
    right
    simp only [if_neg hne, State.readVariant, hc, Option.map_some, Option.getD_some,
      ReadCall.variant, hpc]
    omega
  case finish =>
    right
    by_cases hbytes : c.bytes ≠ []
    · simp only [if_pos hbytes, State.readVariant, hc, Option.map_some, Option.getD_some,
        ReadCall.variant, hpc]
      omega
    · simp only [if_neg hbytes, State.readVariant, hc, Option.map_some, Option.getD_some,
        ReadCall.variant, hpc]
      omega
  case returned =>
    right
    simp only [State.readVariant, hc, Option.map_some, Option.map_none, Option.getD_some,
      Option.getD_none, ReadCall.variant, hpc]
    omega

/-- The routine moves the tail of the buffer only, and not to its head. -/
theorem isr_indices (p : Isr) (m : Machine) (x z : Core.Host) :
    (p.step m x z).1.sp.rxOut = m.sp.rxOut ∧
      ((p.step m x z).1.sp.rxIn = m.sp.rxIn ∨ (p.step m x z).1.sp.rxIn ≠ m.sp.rxOut) := by
  cases p with
  | rx control data =>
    by_cases hfull : (m.sp.rxIn + 1) % bufLen = m.sp.rxOut
    · simp [Isr.step, hfull]
    · simp only [Isr.step, if_neg hfull]
      split_ifs
      · exact ⟨rfl, .inl rfl⟩
      · exact ⟨rfl, .inr hfull⟩
  | rxDone | tx | txDone =>
    simp only [Isr.step]
    split_ifs <;> exact ⟨rfl, .inl rfl⟩
  | poll | rxDummy | txDummy => exact ⟨rfl, .inl rfl⟩

theorem writer_indices (c : WriteCall) (m : Machine) (x z : Core.Host) :
    (c.step m x z).1.sp.rxOut = m.sp.rxOut ∧ (c.step m x z).1.sp.rxIn = m.sp.rxIn := by
  cases hpc : c.pc <;> simp only [WriteCall.step, hpc, and_self]
  case copy => split_ifs <;> exact ⟨rfl, rfl⟩
  all_goals exact ⟨rfl, rfl⟩

theorem timeout_indices (m : Machine) (x : Fin 4 → Core.Host) :
    (m.timeoutRoutine x).sp.rxOut = m.sp.rxOut ∧ (m.timeoutRoutine x).sp.rxIn = m.sp.rxIn := by
  simp only [Machine.timeoutRoutine]
  split_ifs <;> exact ⟨rfl, rfl⟩

theorem setTimeout_indices (m : Machine) (timeout : BitVec 32) :
    (m.setTimeout timeout).sp.rxOut = m.sp.rxOut ∧
      (m.setTimeout timeout).sp.rxIn = m.sp.rxIn := by
  by_cases h : m.sp.timeout ≠ intMax
  · rw [Machine.setTimeout, if_pos h]
    exact ⟨rfl, rfl⟩
  · rw [Machine.setTimeout, if_neg h]
    exact ⟨rfl, rfl⟩

theorem reader_other (hstep : ∀ x z, a ≠ .reader x z)
    (hread : ∀ k nonblock, a ≠ .read k nonblock) :
    (s.step a).reader = s.reader ∧ (s.step a).machine.sp.rxOut = s.machine.sp.rxOut ∧
      ((s.step a).machine.sp.rxIn = s.machine.sp.rxIn ∨
        (s.step a).machine.sp.rxIn ≠ s.machine.sp.rxOut) := by
  cases a with
  | isr x z =>
    cases hp : s.isr with
    | none => simp [State.step, hp]
    | some p =>
      have hindices := isr_indices p s.machine x z
      simpa only [State.step, hp, true_and] using hindices
  | writer x z =>
    cases hc : s.writer with
    | none => simp [State.step, hc]
    | some c =>
      obtain ⟨hout, hin⟩ := writer_indices c s.machine x z
      cases hpc : c.pc <;> simp [State.step, hc, hpc, hout, hin]
  | timeout x =>
    obtain ⟨hout, hin⟩ := timeout_indices s.machine x
    exact ⟨rfl, hout, .inl hin⟩
  | setTimeout timeout =>
    obtain ⟨hout, hin⟩ := setTimeout_indices s.machine timeout
    exact ⟨rfl, hout, .inl hin⟩
  | reader x z => exact absurd rfl (hstep x z)
  | read k nonblock => exact absurd rfl (hread k nonblock)
  | idle | interrupt | write => exact ⟨rfl, rfl, .inl rfl⟩

/-- A step that is not one of a call of read. -/
theorem readVariant_other (hstep : ∀ x z, a ≠ .reader x z)
    (hread : ∀ k nonblock, a ≠ .read k nonblock) : (s.step a).readVariant ≤ s.readVariant := by
  obtain ⟨hreader, hout, hin⟩ := reader_other (s := s) hstep hread
  rw [State.readVariant, State.readVariant, hreader]
  cases s.reader with
  | none => exact le_rfl
  | some c =>
    simp only [Option.map_some, Option.getD_some, ReadCall.variant, hout]
    cases c.pc
    case loadIn =>
      rcases hin with heq | hne
      · rw [heq]
      · simp only [if_neg hne]
        split_ifs <;> omega
    all_goals exact le_rfl

theorem readVariant_read (hnone : s.reader = none) (k : ℕ) (nonblock : Bool) :
    (s.step (.read k nonblock)).readVariant < s.readVariant := by
  simp only [State.step, State.readVariant, hnone, Option.map_some, Option.map_none,
    Option.getD_some, Option.getD_none, ReadCall.variant, ReadCall.start]
  omega

end Inv

namespace State

variable {s : State} {a : Action}

theorem bytes_step (c : ReadCall) (m : Machine) (x z : Core.Host) :
    c.bytes <+: (c.step m x z).2.bytes := by
  cases hpc : c.pc <;> simp only [ReadCall.step, hpc]
  case copy =>
    split_ifs
    · exact List.prefix_rfl
    all_goals exact List.prefix_append _ _
  case finish =>
    by_cases hbytes : c.bytes ≠ []
    · rw [if_pos hbytes]
    · rw [if_neg hbytes]
  all_goals exact List.prefix_rfl

theorem read_step (ha : s.Enabled a) : s.read <+: (s.step a).read := by
  cases a with
  | read k nonblock =>
    have hnone : s.reader = none := ha.2
    simp [step, read, hnone, ReadCall.start]
  | reader x z =>
    cases hc : s.reader with
    | none =>
      simp only [step, hc]
      exact List.prefix_rfl
    | some c =>
      have hbytes := (List.prefix_append_right_inj s.readLog).mpr (bytes_step c s.machine x z)
      cases hpc : c.pc <;> simp only [step, read, hc, hpc]
      case returned => simp
      all_goals exact hbytes
  | isr x z =>
    simp only [step]
    split <;> exact List.prefix_rfl
  | writer x z =>
    simp only [step]
    split
    · exact List.prefix_rfl
    · split <;> exact List.prefix_rfl
  | _ => exact List.prefix_rfl

/-- The processor keeps what it has read from the core, and a read of the data register takes a
byte if there is one. -/
theorem taken_step (h : circuit.Reachable s) (ha : s.Enabled a) :
    s.taken <+: (s.step a).taken ∧
      (s.TakesByte a → s.link.hw.rfifo ≠ [] → s.taken.length < (s.step a).taken.length) := by
  have hinv := inv_reachable h
  have hnow : s.link.fromHost = s.taken ++ s.link.hw.rfifo := hinv.fromHost
  have hnext : (s.step a).link.fromHost = (s.step a).taken ++ (s.step a).link.hw.rfifo :=
    (inv_reachable (h.step ha)).fromHost
  by_cases ht : s.TakesByte a
  · obtain ⟨x, z, -, heq⟩ := ht.isr
    obtain ⟨-, -, -, hfrom⟩ := Link.iordData (l := s.link) (x := x) (z := z) hinv.ready
    have htaken := hfrom _ hnow
    rw [← heq, hnext] at htaken
    have htaken := List.append_cancel_right htaken
    rw [htaken]
    refine ⟨List.prefix_append _ _, fun _ hne => ?_⟩
    simp [hne]
  · have hsame : (s.step a).link.fromHost = s.taken ++ (s.step a).link.hw.rfifo := by
      rcases s.step_link a with hm | ht' | hg
      · exact (hm.passes hinv.ready).fromHost _ hnow
      · exact absurd ht' ht
      · obtain ⟨x, z, -, heq⟩ := hg.isr
        rw [heq]
        exact (Link.iowrData_rfifo hinv.ready).1 _ hnow
    rw [hnext] at hsame
    rw [List.append_cancel_right hsame]
    exact ⟨List.prefix_rfl, fun ht' => absurd ht' ht⟩

/-- A pause of the host stays to be served until the processor reads a byte. -/
theorem pauseIrq_step (h : circuit.Reachable s) (ha : s.Enabled a)
    (hkeeps : (s.step a).taken.length = s.taken.length) (hne : s.link.hw.rfifo ≠ [])
    (hpause : s.link.hw.pauseIrq = true) : (s.step a).link.hw.pauseIrq = true := by
  have hready := (inv_reachable h).ready
  rcases s.step_link a with hm | ht | hg
  · exact hm.pauseIrq hready hpause
  · exact absurd ((taken_step h ha).2 ht hne) (by omega)
  · obtain ⟨x, z, -, heq⟩ := hg.isr
    rw [heq]
    exact Link.pauseIrq_next (by simp [Link.next, Core.step, Access.bus, Core.read])
      (Link.pauseIrq_next hready.read0 hpause)

/-- The read interrupt stays on while the buffer is empty. -/
theorem ienAF_step (h : circuit.Reachable s) (ha : s.Enabled a) (hrx : s.rxRing = [])
    (hon : s.link.hw.ienAF = true) : (s.step a).link.hw.ienAF = true := by
  have hinv := inv_reachable h
  refine (inv_reachable (h.step ha)).ienAF.trans
    (irqEnable_step (by decide) (hinv.ienAF.symm.trans hon) ?_)
  intro p hp hclears
  have hknows := hinv.isr p hp
  cases p with
  | rxDone control data => exact hknows.1 hrx
  | _ => exact hclears

end State

section Execution

variable {st : ℕ → State} {act : ℕ → Action}

/-- The application reads again and again, a byte at least each time. -/
structure Reads (act : ℕ → Action) : Prop where
  space : ∀ n k nonblock, act n = .read k nonblock → 0 < k
  again : ∃ᶠ n in atTop, (∃ k nonblock, act n = .read k nonblock) ∨ ∃ x z, act n = .reader x z

/-- The host makes a pause again and again. -/
def HostPauses (act : ℕ → Action) : Prop := ∃ᶠ n in atTop, ∃ x, act n = .idle x ∧ x.tPause = true

theorem request_step (c : ReadCall) (m : Machine) (x z : Core.Host) :
    (c.step m x z).2.request = c.request := by
  cases hpc : c.pc <;> simp only [ReadCall.step, hpc]
  case copy => split_ifs <;> rfl
  case finish => split_ifs <;> rfl

/-- A call begins again only from where it has waited. -/
theorem outer_of_step {c : ReadCall} {m : Machine} {x z : Core.Host}
    (h : (c.step m x z).2.pc = .outer) : c.pc = .recheck ∧ (c.step m x z).2.bytes = c.bytes := by
  cases hpc : c.pc <;> simp only [ReadCall.step, hpc] at h ⊢
  case recheck => simp
  case loadIn | returned => cases h
  all_goals split_ifs at h

theorem asks_step {s : State} {a : Action} (h : circuit.Reachable s)
    (hspace : ∀ k nonblock, a = .read k nonblock → 0 < k) (hasks : ∀ c ∈ s.reader, c.Asks) :
    ∀ c ∈ (s.step a).reader, c.Asks := by
  by_cases hread : ∃ k nonblock, a = .read k nonblock
  · obtain ⟨k, nonblock, rfl⟩ := hread
    rintro c hc
    obtain rfl := Option.some.inj hc
    exact ⟨hspace k nonblock rfl, fun _ => rfl⟩
  by_cases hstep : ∃ x z, a = .reader x z
  · obtain ⟨x, z, rfl⟩ := hstep
    cases hc : s.reader with
    | none => simpa only [State.step, hc] using hasks
    | some c =>
      have hold := hasks c hc
      have hnew : (c.step s.machine x z).2.Asks := by
        refine ⟨by rw [request_step]; exact hold.1, fun houter => ?_⟩
        obtain ⟨hpc, hbytes⟩ := outer_of_step houter
        have hhere := ((inv_reachable h).reader c hc).here
        rw [hpc] at hhere
        exact hbytes.trans hhere.2.1
      cases hpc : c.pc <;> simp only [State.step, hc, hpc]
      case returned => simp
      all_goals
        rintro d hd
        obtain rfl := Option.some.inj hd
        exact hnew
  · push Not at hread hstep
    rw [(Inv.reader_other hstep hread).1]
    exact hasks

theorem asks (h : circuit.Execution st act) (hreads : Reads act) (n : ℕ) :
    ∀ c ∈ (st n).reader, c.Asks := by
  induction n with
  | zero =>
    obtain ⟨sp, before, alarmStarted, x, x', -, heq⟩ := h.init
    rw [heq]
    rintro c hc
    cases hc
  | succ n ih =>
    rw [h.step]
    exact asks_step (h.reachable n) (hreads.space n) ih

/-- While there is something to do for each call of read, the application takes bytes again and
again. -/
theorem reads_more (h : circuit.Execution st act) (hreads : Reads act)
    (hready : ∀ᶠ n in atTop, ∀ c ∈ (st n).reader, (st n).rxRing ≠ [] ∨ c.bytes ≠ []) :
    ∃ᶠ n in atTop, (st n).read.length < (st (n + 1)).read.length := by
  intro hnever
  have hstep : ∀ᶠ n in atTop, (st (n + 1)).readVariant ≤ (st n).readVariant ∧
      (((∃ k nonblock, act n = .read k nonblock) ∨ ∃ x z, act n = .reader x z) →
        (st (n + 1)).readVariant < (st n).readVariant) := by
    filter_upwards [hready, hnever] with n hn hsame
    have hinv := inv_reachable (h.reachable n)
    have ha := h.admits n
    rw [h.step] at hsame ⊢
    by_cases hread : ∃ k nonblock, act n = .read k nonblock
    · obtain ⟨k, nonblock, hact⟩ := hread
      rw [hact] at ha ⊢
      have hlt := Inv.readVariant_read ha.2 k nonblock
      exact ⟨hlt.le, fun _ => hlt⟩
    by_cases hreader : ∃ x z, act n = .reader x z
    · obtain ⟨x, z, hact⟩ := hreader
      rw [hact] at ha hsame ⊢
      obtain ⟨c, hc⟩ := Option.ne_none_iff_exists'.mp ha.2
      have hlt := (hinv.reader_leads hc (asks h hreads n c hc) (hn c hc)).resolve_left hsame
      exact ⟨hlt.le, fun _ => hlt⟩
    · refine ⟨?_, fun hact => absurd hact (not_or.mpr ⟨hread, hreader⟩)⟩
      push Not at hread hreader
      exact Inv.readVariant_other hreader hread
  have hstops : ∀ᶠ n in atTop,
      ¬((∃ k nonblock, act n = .read k nonblock) ∨ ∃ x z, act n = .reader x z) :=
    eventually_not_of_variant (f := fun n => (st n).readVariant) (hstep.mono fun n hn => hn.1)
      (hstep.mono fun n hn => hn.2)
  exact hreads.again hstops

/-- While bytes wait in the core and the buffer has none, the read interrupt comes on. -/
theorem ienAF_eventually (h : circuit.Execution st act) (hreads : Reads act)
    (hstuck : ∀ᶠ n in atTop, (st (n + 1)).read.length = (st n).read.length)
    (hrx : ∀ᶠ n in atTop, (st n).rxRing = []) : ∀ᶠ n in atTop, (st n).link.hw.ienAF = true := by
  refine eventually_of_stable ?_ ?_
  · filter_upwards [hrx] with n hn hon
    rw [h.step]
    exact State.ienAF_step (h.reachable n) (h.admits n) hn hon
  intro hnever
  refine reads_more h hreads ?_ (hstuck.mono fun n hn => by omega)
  filter_upwards [hnever, hrx] with n hoff hn c hc
  have hinv := inv_reachable (h.reachable n)
  have hbit : (st n).machine.sp.irqEnable.getLsbD 0 = false :=
    Bool.not_eq_true _ ▸ fun hon => hoff (hinv.ienAF.trans hon)
  obtain ⟨d, hd, hen⟩ := (hinv.readEnabled hbit).resolve_left (not_not.mpr hn)
  obtain rfl : c = d := Option.some.inj (hc.symm.trans hd)
  exact .inr hen.1

/-- Each byte that the core has taken from the host comes to the application. -/
theorem received_bytes_arrive (h : circuit.Execution st act) (hfair : Fair st act)
    (hreads : Reads act) (hhost : HostPauses act) (n : ℕ) :
    ∃ m ≥ n, (st n).link.fromHost <+: (st m).read := by
  by_contra hnever
  push Not at hnever
  have hfrom : ∀ m, (st m).link.fromHost = (st m).taken ++ (st m).link.hw.rfifo := fun m =>
    (inv_reachable (h.reachable m)).fromHost
  have hlt : ∀ m ≥ n, (st m).read.length < (st n).link.fromHost.length := by
    intro m hm
    by_contra hge
    refine hnever m hm (List.prefix_of_prefix_length_le (grows h hm).fromHost ?_ (by omega))
    rw [hfrom, State.taken, List.append_assoc]
    exact List.prefix_append _ _
  have hread : ∀ m, (st m).read <+: (st (m + 1)).read := by
    intro m
    rw [h.step]
    exact State.read_step (h.admits m)
  have htaken : ∀ m, (st m).taken <+: (st (m + 1)).taken := by
    intro m
    rw [h.step]
    exact (State.taken_step (h.reachable m) (h.admits m)).1
  have hlength : ∀ m, (st m).taken.length = (st m).read.length + (st m).rxRing.length :=
    fun m => List.length_append
  have hstuck : ∀ᶠ m in atTop, (st (m + 1)).read.length = (st m).read.length := by
    have hleft := eventually_eq_of_le
      (f := fun m => (st n).link.fromHost.length - (st m).read.length)
      (.of_forall fun m => Nat.sub_le_sub_left (hread m).length_le _)
    filter_upwards [hleft, eventually_ge_atTop n] with m heq hm
    have hnow := hlt m hm
    have hnext := hlt (m + 1) (by omega)
    omega
  have hrx : ∀ᶠ m in atTop, (st m).rxRing = [] := by
    by_contra hbytes
    have hstays : ∀ᶠ m in atTop, (st m).rxRing ≠ [] := by
      refine eventually_of_stable ?_ (not_eventually.mp hbytes)
      filter_upwards [hstuck] with m hm hne hnil
      have hle := (htaken m).length_le
      rw [hlength, hlength, hm, hnil, List.length_nil] at hle
      exact hne (List.eq_nil_of_length_eq_zero (by omega))
    exact reads_more h hreads (hstays.mono fun m hm c _ => .inl hm)
      (hstuck.mono fun m hm => by omega)
  have hfifo : ∀ᶠ m in atTop, (st m).link.hw.rfifo ≠ [] := by
    filter_upwards [hrx, eventually_ge_atTop n] with m hm hle hnil
    have hall := (grows h hle).fromHost.length_le
    rw [hfrom m, hnil, List.append_nil, hlength, hm, List.length_nil] at hall
    have hnow := hlt m hle
    omega
  have hpause : ∀ᶠ m in atTop, (st m).link.hw.pauseIrq = true := by
    refine eventually_of_stable ?_ (frequently_of_succ ?_)
    · filter_upwards [hstuck, hrx, eventually_succ hrx, hfifo] with m hm hnow hnext hne hon
      have hkeeps : (st (m + 1)).taken.length = (st m).taken.length := by
        rw [hlength, hlength, hm, hnow, hnext]
      rw [h.step] at hkeeps ⊢
      exact State.pauseIrq_step (h.reachable m) (h.admits m) hkeeps hne hon
    · refine (hhost.and_eventually hfifo).mono ?_
      rintro m ⟨⟨x, ha, hx⟩, hne⟩
      have hlink : (st (m + 1)).link = (st m).link.idle x := by
        rw [h.step, ha]
        rfl
      rw [hlink]
      simp [Link.idle, Link.next, Core.step, Core.fifoEF, hx, hne]
  have hien := ienAF_eventually h hreads hstuck hrx
  refine frequently_not_pending h hfair ?_
  filter_upwards [hpause, hien] with m hpause hien
  exact not_not.mpr (.inr ⟨hien, hpause⟩)

end Execution

/-- The host makes a pause. -/
def pausing : Core.Host := ⟨false, false, true, 0#_⟩

/-- A call of read for a byte that the host sends, and another one that waits. -/
def receivingTwice : List Action :=
  receiving ++ .read 4 false :: List.replicate 4 (.reader quiet quiet) ++
    List.replicate 3 (.idle pausing)

/-- The call goes on waiting, and the host makes pauses. -/
def waiting (n : ℕ) : Action := if n % 2 = 0 then .idle pausing else .reader quiet quiet

def receivingRun : ℕ → State := trajectory State.step .start (followedBy receivingTwice waiting)

/-- A call waits for a byte. -/
structure Waiting (s : State) : Prop where
  link : s.link = (run State.step .start receivingTwice).link
  isr : s.isr = none
  sp : s.sp.hostInactive < s.sp.timeout
  reader : ∃ c, s.reader = some c ∧ (c.pc = .spin ∨ c.pc = .spinHost) ∧ c.rxIn = s.sp.rxIn

theorem Waiting.reader_step {s : State} (h : Waiting s) :
    Waiting (s.step (.reader quiet quiet)) := by
  obtain ⟨c, hc, hpc, hin⟩ := h.reader
  simp only [State.sp] at hin
  have hsp := h.sp
  simp only [State.sp] at hsp
  rcases hpc with hpc | hpc
  · simp only [State.step, hc, hpc, ReadCall.step, if_pos hin]
    exact ⟨h.link, h.isr, h.sp, _, rfl, .inr rfl, hin⟩
  · simp only [State.step, hc, hpc, ReadCall.step, if_pos hsp]
    exact ⟨h.link, h.isr, h.sp, _, rfl, .inl rfl, hin⟩

theorem Waiting.idle {s : State} (h : Waiting s) : Waiting (s.step (.idle pausing)) := by
  refine ⟨?_, h.isr, h.sp, h.reader⟩
  have hstep : (s.step (.idle pausing)).link = s.link.idle pausing := rfl
  exact hstep.trans (by rw [h.link]; decide +kernel)

theorem execution_receiving :
    circuit.Execution receivingRun (followedBy receivingTwice waiting) ∧
      ∀ n, Waiting (receivingRun (receivingTwice.length + n)) := by
  refine Circuit.execution_followedBy init_start (by decide +kernel) ⟨rfl, ?_, ?_, ?_⟩ ?_
  · decide +kernel
  · decide +kernel
  · exact ⟨⟨4, false, .spin, [], [], 4, 1, 1, 0⟩, by decide +kernel, .inl rfl, by decide +kernel⟩
  · intro t n ht
    rw [waiting]
    split_ifs
    · exact ⟨trivial, ht.idle⟩
    · obtain ⟨c, hc, -⟩ := ht.reader
      exact ⟨⟨ht.isr, by rw [hc]; simp⟩, ht.reader_step⟩

theorem receiving_ends : ∀ᶠ n in atTop, Waiting (receivingRun n) := by
  refine eventually_atTop.mpr ⟨receivingTwice.length, fun n hn => ?_⟩
  obtain ⟨k, rfl⟩ := Nat.exists_eq_add_of_le hn
  exact execution_receiving.2 k

/-- Both things happen again and again. -/
theorem frequently_waiting (r : ℕ) (hr : r < 2) :
    ∃ᶠ n in atTop, followedBy receivingTwice waiting n = waiting r := by
  refine frequently_atTop.mpr fun n => ⟨receivingTwice.length + (r + 2 * n), by omega, ?_⟩
  rw [followedBy_add, waiting, waiting, Nat.add_mul_mod_self_left]

theorem received_bytes_arrive_one_byte :
    (receivingRun 9).link.fromHost = [0x41#8] ∧
      ∃ m ≥ 9, (receivingRun 9).link.fromHost <+: (receivingRun m).read := by
  refine ⟨by decide +kernel, received_bytes_arrive execution_receiving.1 ⟨?_, ?_⟩ ⟨?_, ?_⟩ ?_ 9⟩
  · exact (receiving_ends.mono fun n hn => .inl (by rw [hn.link]; decide +kernel)).frequently
  · exact (receiving_ends.mono fun n hn => .inl hn.isr).frequently
  · intro n k nonblock hact
    rcases followedBy_mem receivingTwice waiting n with hmem | ⟨j, hj⟩
    · rw [hact] at hmem
      simp [receivingTwice, receiving] at hmem
      omega
    · rw [hact, waiting] at hj
      split_ifs at hj
  · exact (frequently_waiting 1 (by decide)).mono fun n hn => .inr ⟨quiet, quiet, hn⟩
  · exact (frequently_waiting 0 (by decide)).mono fun n hn => ⟨pausing, hn, rfl⟩

end AvalonCores.JtagUart
