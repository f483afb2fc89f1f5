import Mathlib.Tactic
import AvalonCores.JtagUart.Progress

/-! Each byte that a call of write has taken over comes to the host in the end, if interrupts are
served, the call goes on, and the host takes bytes again and again. -/

namespace AvalonCores.JtagUart

open Filter Sync Sync.RingBuffer

namespace Link

variable {l : Link}

/-- A cycle in which the host takes a byte moves one towards it. -/
theorem idle_moves {x : Core.Host} (hx : x.rEna = true)
    (h : l.toHost.length < l.written.length) :
    l.toHost.length + l.sent.length < (l.idle x).toHost.length + (l.idle x).sent.length := by
  have hsent : l.sent.length = l.toHost.length + l.hw.rVal.toNat := by
    cases hv : l.hw.rVal <;> simp [sent, hv]
  have hnext : (l.idle x).toHost.length = l.sent.length := congrArg List.length toHost_next
  have hgrow := (grows_next l ⟨Bus.idle, x⟩).sent.length_le
  cases hv : l.hw.rVal with
  | true =>
    rw [hv, Bool.toNat_true] at hsent
    have hle : l.sent.length ≤ (l.idle x).sent.length := hgrow
    omega
  | false =>
    rw [hv, Bool.toNat_false] at hsent
    have hne : l.hw.wfifo ≠ [] := by
      intro hnil
      rw [written_eq, hnil, List.append_nil] at h
      omega
    have hread : Core.rdWfifo l.hw ⟨Bus.idle, x⟩ = true := by
      simp [Core.rdWfifo, Core.wfifoEmpty, hx, hne]
    have hlen : (l.idle x).sent.length = l.sent.length + 1 := by
      rw [Link.idle, sent_next, hread]
      simp
    omega

end Link

/-- What is left to do before a place where `copying` bytes remain to be copied is left for good. -/
def WritePc.left (copying : ℕ) : WritePc → ℕ
  | .fill => bufLen + 4
  | .loadIn => bufLen + 3
  | .loadOut => bufLen + 2
  | .copy => copying + 1
  | _ => 0

/-- What is left to do before the call turns the write interrupt on. -/
def WriteCall.variant (c : WriteCall) : ℕ := c.count * (bufLen + 5) + c.pc.left (c.n - c.copied)

namespace Inv

variable {s : State} {rx tx : List (BitVec 8)} {a : Action} {x z : Core.Host} {c : WriteCall}

/-- A step of a call that has yet to turn the write interrupt on. -/
theorem writer_leads (h : Inv s rx tx) (hc : s.writer = some c) (hen : c.Enables) :
    (s.step (.writer x z)).machine.sp.irqEnable.getLsbD 1 = true ∨
      ∃ c' : WriteCall, (s.step (.writer x z)).writer = some c' ∧ c'.variant < c.variant := by
  have hhere := (h.writer c hc).here
  rcases hen with hpc | hpc | hpc | hpc | hpc <;> rw [hpc] at hhere <;>
    simp only [State.step, hc, hpc, WriteCall.step]
  · -- `fill`
    refine .inr ⟨_, rfl, ?_⟩
    rw [WriteCall.variant, WriteCall.variant, hpc]
    refine Nat.add_lt_add_left ?_ _
    dsimp only
    split_ifs <;> simp only [WritePc.left] <;> omega
  · -- `loadIn`
    refine .inr ⟨_, rfl, ?_⟩
    rw [WriteCall.variant, WriteCall.variant, hpc]
    exact Nat.add_lt_add_left (Nat.lt_succ_self _) _
  · -- `loadOut`
    have hlt := h.txQueue.head_lt
    refine .inr ⟨_, rfl, ?_⟩
    rw [WriteCall.variant, WriteCall.variant, hpc]
    refine Nat.add_lt_add_left ?_ _
    dsimp only
    split_ifs <;> simp only [WritePc.left] <;> omega
  · -- `copy`
    obtain ⟨⟨hn, hcount, -⟩, -, -⟩ := hhere
    by_cases hmore : c.copied < c.n
    · simp only [if_pos hmore]
      refine .inr ⟨_, rfl, ?_⟩
      rw [WriteCall.variant, WriteCall.variant, hpc]
      refine Nat.add_lt_add_left ?_ _
      simp only [WritePc.left]
      omega
    · simp only [if_neg hmore]
      refine .inr ⟨_, rfl, ?_⟩
      have hle : (c.data.length - (c.done + c.n) + 1) * (bufLen + 5) ≤ c.count * (bufLen + 5) := by
        refine Nat.mul_le_mul_right _ ?_
        simp only [WriteCall.count] at hcount ⊢
        omega
      rw [Nat.add_mul, Nat.one_mul] at hle
      simp only [WriteCall.variant, WriteCall.count, WritePc.left, hpc] at hle ⊢
      omega
  · -- `enable`
    exact .inl (set_we _).1

/-- Only its own steps change a call. -/
theorem writer_other (ha : s.Enabled a) (hc : s.writer = some c) (hne : ∀ x z, a ≠ .writer x z) :
    (s.step a).writer = some c := by
  cases a with
  | write data nonblock =>
    rw [ha.2] at hc
    cases hc
  | writer x z => exact absurd rfl (hne x z)
  | isr x z =>
    simp only [State.step]
    split <;> exact hc
  | reader x z =>
    simp only [State.step]
    split
    · exact hc
    · split <;> exact hc
  | _ => exact hc

theorem fifoAE_step (h : Inv s rx tx) (hempty : s.link.hw.wfifo = [])
    (hae : s.link.hw.fifoAE = true) : (s.step a).link.hw.fifoAE = true := by
  rcases s.step_link a with hm | ht | hg
  · exact hm.fifoAE h.ready hempty hae
  · obtain ⟨x, z, -, heq⟩ := ht.isr
    rw [heq]
    exact Link.fifoAE_access h.ready hempty _ x z
  · obtain ⟨x, z, -, heq⟩ := hg.isr
    rw [heq]
    exact Link.fifoAE_access h.ready hempty _ x z

/-- The write interrupt stays on while the buffer has bytes. -/
theorem ienAE_step (h : Inv s rx tx) (ha : s.Enabled a) (htx : tx ≠ [])
    (hon : s.link.hw.ienAE = true) : (s.step a).link.hw.ienAE = true := by
  obtain ⟨rx', tx', h'⟩ := h.step ha
  refine h'.ienAE.trans (State.irqEnable_step (by decide) (h.ienAE.symm.trans hon) ?_)
  intro p hp hclears
  have hknows := h.isr p hp
  cases p with
  | txDone space => exact htx (hknows hclears)
  | _ => exact hclears

end Inv

theorem State.written_step {s : State} {a : Action} (ha : s.Enabled a) :
    s.written <+: (s.step a).written := by
  cases a with
  | write data nonblock =>
    have hnone : s.writer = none := ha.2
    simp [State.step, State.written, hnone, WriteCall.start]
  | writer x z =>
    cases hc : s.writer with
    | none =>
      simp only [State.step, hc]
      exact List.prefix_rfl
    | some c =>
      cases hpc : c.pc <;> simp only [State.step, State.written, hc, hpc, WriteCall.step]
      case returned => simp
      case copy =>
        refine (List.prefix_append_right_inj _).mpr ?_
        split_ifs
        · exact List.prefix_rfl
        · exact List.take_prefix_take_left (Nat.le_add_right _ _)
      all_goals exact List.prefix_rfl
  | isr x z =>
    simp only [State.step]
    split <;> exact List.prefix_rfl
  | reader x z =>
    simp only [State.step]
    split
    · exact List.prefix_rfl
    · split <;> exact List.prefix_rfl
  | _ => exact List.prefix_rfl

section Execution

variable {st : ℕ → State} {act : ℕ → Action}

theorem written_mono (h : circuit.Execution st act) {n m : ℕ} (hnm : n ≤ m) :
    (st n).written <+: (st m).written := by
  induction m, hnm using Nat.le_induction with
  | base => exact List.prefix_rfl
  | succ m _ ih =>
    rw [h.step]
    exact ih.trans (State.written_step (h.admits m))

/-- The host takes a byte again and again. -/
def HostTakes (act : ℕ → Action) : Prop := ∃ᶠ n in atTop, ∃ x, act n = .idle x ∧ x.rEna = true

/-- A call of write goes on until it returns. -/
def WriterGoesOn (st : ℕ → State) (act : ℕ → Action) : Prop :=
  ∃ᶠ n in atTop, (st n).writer = none ∨ ∃ x z, act n = .writer x z

/-- What has entered the core comes to the host. -/
theorem entered_bytes_arrive (h : circuit.Execution st act) (hhost : HostTakes act) (n : ℕ) :
    ∃ m ≥ n, (st n).link.written <+: (st m).link.toHost := by
  by_contra hnever
  push Not at hnever
  have hlt : ∀ m ≥ n, (st m).link.toHost.length < (st n).link.written.length := by
    intro m hm
    by_contra hge
    refine hnever m hm (List.prefix_of_prefix_length_le (grows h hm).written ?_ (by omega))
    rw [Link.written_eq, Link.sent, List.append_assoc]
    exact List.prefix_append _ _
  have hsent : ∀ m, (st m).link.sent.length ≤ (st m).link.toHost.length + 1 := by
    intro m
    rw [Link.sent, List.length_append]
    split_ifs <;> simp
  -- the bytes on their way from the core to the host
  have hmoves : ∀ᶠ m in atTop, ¬∃ x, act m = .idle x ∧ x.rEna = true := by
    refine eventually_not_of_variant
      (f := fun m => 2 * (st n).link.written.length -
        ((st m).link.toHost.length + (st m).link.sent.length))
      (.of_forall fun m => ?_) (eventually_atTop.mpr ⟨n, fun m hm => ?_⟩)
    · have hgrow := grows h (Nat.le_succ m)
      exact Nat.sub_le_sub_left (Nat.add_le_add hgrow.toHost.length_le hgrow.sent.length_le) _
    · rintro ⟨x, ha, hx⟩
      have hstep := h.step m
      rw [ha] at hstep
      have hlink : (st (m + 1)).link = (st m).link.idle x := congrArg State.link hstep
      have hw := (grows h hm).written.length_le
      have hnow := hlt m hm
      have hs := hsent m
      have hup := Link.idle_moves (l := (st m).link) hx (by omega)
      rw [hlink]
      omega
  exact hhost hmoves

/-- While bytes wait in the buffer and the core has none, the write interrupt comes on. -/
theorem ienAE_eventually (h : circuit.Execution st act) (hwriter : WriterGoesOn st act)
    (htx : ∀ᶠ n in atTop, (st n).txRing ≠ []) :
    ∀ᶠ n in atTop, (st n).link.hw.ienAE = true := by
  refine eventually_of_stable ?_ ?_
  · filter_upwards [htx] with n hn hon
    rw [h.step]
    exact (inv_reachable (h.reachable n)).ienAE_step (h.admits n) hn hon
  intro hnever
  have hoff : ∀ᶠ n in atTop, (st n).machine.sp.irqEnable.getLsbD 1 ≠ true ∧
      ∃ c ∈ (st n).writer, c.Enables := by
    filter_upwards [hnever, htx] with n hn hne
    have hinv := inv_reachable (h.reachable n)
    have hbit : (st n).machine.sp.irqEnable.getLsbD 1 ≠ true := fun hon => hn (hinv.ienAE.trans hon)
    exact ⟨hbit, (hinv.writeEnabled (Bool.not_eq_true _ ▸ hbit)).resolve_left hne⟩
  have hleads : ∀ᶠ n in atTop, ¬∃ x z, act n = .writer x z := by
    have hstep : ∀ᶠ n in atTop,
        ((st (n + 1)).writer.map WriteCall.variant).getD 0 ≤
          ((st n).writer.map WriteCall.variant).getD 0 ∧
        ((∃ x z, act n = .writer x z) → ((st (n + 1)).writer.map WriteCall.variant).getD 0 <
          ((st n).writer.map WriteCall.variant).getD 0) := by
      filter_upwards [hoff, eventually_succ hoff] with n hnow hnext
      have hinv := inv_reachable (h.reachable n)
      obtain ⟨c, hc, hen⟩ := hnow.2
      have hc : (st n).writer = some c := hc
      by_cases hact : ∃ x z, act n = .writer x z
      · obtain ⟨x, z, hact⟩ := hact
        rw [h.step, hact] at hnext ⊢
        obtain ⟨c', hc', hlt⟩ := (hinv.writer_leads hc hen).resolve_left hnext.1
        have hc' : (circuit.step (st n) (.writer x z)).writer = some c' := hc'
        rw [hc, hc']
        exact ⟨hlt.le, fun _ => hlt⟩
      · push Not at hact
        have hsame := Inv.writer_other (h.admits n) hc hact
        have hsame : (st (n + 1)).writer = some c := by rw [h.step]; exact hsame
        rw [hc, hsame]
        refine ⟨le_rfl, ?_⟩
        rintro ⟨x, z, hact'⟩
        exact absurd hact' (hact x z)
    exact eventually_not_of_variant
      (f := fun n => ((st n).writer.map WriteCall.variant).getD 0)
      (hstep.mono fun n hn => hn.1) (hstep.mono fun n hn => hn.2)
  obtain ⟨n, hgoes, ⟨-, c, hc, -⟩, hstops⟩ := (hwriter.and_eventually (hoff.and hleads)).exists
  rcases hgoes with hnone | hact
  · rw [hnone] at hc
    cases hc
  · exact hstops hact

/-- What a call of write has taken over enters the core. -/
theorem written_bytes_enter (h : circuit.Execution st act) (hfair : Fair st act)
    (hwriter : WriterGoesOn st act) (hhost : HostTakes act) (n : ℕ) :
    ∃ m ≥ n, (st n).written <+: (st m).link.written := by
  by_contra hnever
  push Not at hnever
  have hinv := fun m => inv_reachable (h.reachable m)
  have hlt : ∀ m ≥ n, (st m).link.written.length < (st n).written.length := by
    intro m hm
    by_contra hge
    refine hnever m hm (List.prefix_of_prefix_length_le (written_mono h hm) ?_ (by omega))
    rw [← (hinv m).toHost]
    exact List.prefix_append _ _
  have htx : ∀ᶠ m in atTop, (st m).txRing ≠ [] := by
    refine eventually_atTop.mpr ⟨n, fun m hm hnil => ?_⟩
    have heq := (hinv m).toHost
    rw [hnil, List.append_nil] at heq
    have hle := (written_mono h hm).length_le
    rw [← heq] at hle
    exact absurd (hlt m hm) (by simpa [State.link] using hle)
  -- from some cycle on, no byte enters the core, and the host has all that have
  have hsame : ∀ᶠ m in atTop, (st (m + 1)).link.written.length = (st m).link.written.length := by
    have hleft := eventually_eq_of_le
      (f := fun m => (st n).written.length - (st m).link.written.length)
      (.of_forall fun m => Nat.sub_le_sub_left (grows h (Nat.le_succ m)).written.length_le _)
    filter_upwards [hleft, eventually_ge_atTop n] with m heq hm
    have hnow := hlt m hm
    have hnext := hlt (m + 1) (by omega)
    omega
  have hempty : ∀ᶠ m in atTop, (st m).link.hw.wfifo = [] := by
    obtain ⟨N, hN⟩ := eventually_atTop.mp hsame
    have hconst : ∀ m ≥ N, (st m).link.written.length = (st N).link.written.length := by
      intro m hm
      induction m, hm using Nat.le_induction with
      | base => rfl
      | succ m hm ih => rw [hN m hm, ih]
    obtain ⟨k, hk, harrive⟩ := entered_bytes_arrive h hhost N
    refine eventually_atTop.mpr ⟨k, fun m hm => List.eq_nil_of_length_eq_zero ?_⟩
    have hle := harrive.length_le.trans (grows h hm).toHost.length_le
    have heq := hconst m (hk.le.trans hm)
    rw [Link.written_eq, Link.sent, List.length_append, List.length_append] at heq
    omega
  have hae : ∀ᶠ m in atTop, (st m).link.hw.fifoAE = true := by
    refine eventually_of_stable ?_ (frequently_of_succ ?_)
    · filter_upwards [hempty] with m hm hon
      rw [h.step]
      exact (hinv m).fifoAE_step hm hon
    · refine (hhost.and_eventually hempty).mono ?_
      rintro m ⟨⟨x, ha, -⟩, hm⟩
      rw [h.step, ha]
      exact (Link.Move.idle x).fifoAE (hinv m).ready hm
  have hien := ienAE_eventually h hwriter htx
  refine frequently_not_pending h hfair ?_
  filter_upwards [hempty, hae, hien] with m hm hae hien
  exact not_not.mpr (.inl ⟨hien, hae, hm⟩)

/-- Each byte that a call of write has taken over comes to the host. -/
theorem written_bytes_arrive (h : circuit.Execution st act) (hfair : Fair st act)
    (hwriter : WriterGoesOn st act) (hhost : HostTakes act) (n : ℕ) :
    ∃ m ≥ n, (st n).written <+: (st m).link.toHost := by
  obtain ⟨k, hk, henter⟩ := written_bytes_enter h hfair hwriter hhost n
  obtain ⟨m, hm, harrive⟩ := entered_bytes_arrive h hhost k
  exact ⟨m, hk.le.trans hm, henter.trans harrive⟩

end Execution

/-- The host takes a byte. -/
def taking : Core.Host := ⟨true, false, false, 0#_⟩

/-- A call of write for two bytes, which the routine takes to the core. -/
def sending : List Action := transmitting ++ List.replicate 4 (.idle taking)

def sendingRun : ℕ → State :=
  trajectory State.step .start (followedBy sending fun _ => .idle taking)

/-- Nothing is left to do. -/
structure Sent (s : State) : Prop where
  link : s.link = (run State.step .start sending).link
  isr : s.isr = none
  writer : s.writer = none

theorem execution_sending :
    circuit.Execution sendingRun (followedBy sending fun _ => .idle taking) ∧
      ∀ n, Sent (sendingRun (sending.length + n)) := by
  refine Circuit.execution_followedBy init_start (by decide +kernel)
    ⟨rfl, by decide +kernel, by decide +kernel⟩ fun t _ ht => ⟨trivial, ?_, ht.isr, ht.writer⟩
  have hstep : (t.step (.idle taking)).link = t.link.idle taking := rfl
  exact hstep.trans (by rw [ht.link]; decide +kernel)

theorem sending_ends : ∀ᶠ n in atTop, Sent (sendingRun n) ∧
    followedBy sending (fun _ => .idle taking) n = .idle taking := by
  refine eventually_atTop.mpr ⟨sending.length, fun n hn => ?_⟩
  obtain ⟨k, rfl⟩ := Nat.exists_eq_add_of_le hn
  exact ⟨execution_sending.2 k, followedBy_add _ _ _⟩

theorem written_bytes_arrive_two_bytes :
    (sendingRun 13).written = [0x48#8, 0x69#8] ∧
      ∃ m ≥ 13, (sendingRun 13).written <+: (sendingRun m).link.toHost := by
  refine ⟨by decide +kernel, written_bytes_arrive execution_sending.1 ⟨?_, ?_⟩ ?_ ?_ 13⟩
  · exact (sending_ends.mono fun n hn => .inl (by rw [hn.1.link]; decide +kernel)).frequently
  · exact (sending_ends.mono fun n hn => .inl hn.1.isr).frequently
  · exact (sending_ends.mono fun n hn => .inl hn.1.writer).frequently
  · exact (sending_ends.mono fun n hn => ⟨taking, hn.2, rfl⟩).frequently

end AvalonCores.JtagUart
