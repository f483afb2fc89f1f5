import Mathlib.Tactic
import AvalonCores.JtagUart.Core

/-! Register accesses of a processor to the JTAG UART core, each of two cycles on its slave port,
with any traffic on the JTAG interface.  A `Link` is the core together with the bytes that have
passed that interface in each direction. -/

namespace AvalonCores.JtagUart

open AvalonCores.Sync AvalonCores.JtagUart.Core

def dataDataMsk : BitVec 32 := 0x000000FF#32

def dataRvalidMsk : BitVec 32 := 0x00008000#32

def dataRavailMsk : BitVec 32 := 0xFFFF0000#32

def dataRavailOfst : ℕ := 16

def controlReMsk : BitVec 32 := 0x00000001#32

def controlWeMsk : BitVec 32 := 0x00000002#32

def controlRiMsk : BitVec 32 := 0x00000100#32

def controlWiMsk : BitVec 32 := 0x00000200#32

def controlAcMsk : BitVec 32 := 0x00000400#32

def controlWspaceMsk : BitVec 32 := 0xFFFF0000#32

def controlWspaceOfst : ℕ := 16

/-- The byte in a word of the data register. -/
def dataByte (data : BitVec 32) : BitVec 8 := (data &&& dataDataMsk).setWidth 8

/-- The core, the bytes that the host has received, and the bytes that the core has taken from the
host. -/
structure Link where
  hw : Core.State
  toHost : List (BitVec 8)
  fromHost : List (BitVec 8)
deriving DecidableEq, Repr

/-- The slave port without an access. -/
def Bus.idle : Bus := ⟨false, false, true, true, 0#_⟩

/-- The accesses of `IORD` and `IOWR` to the two registers. -/
inductive Access
  | iordData
  | iordControl
  | iowrData (data : BitVec 32)
  | iowrControl (data : BitVec 32)
deriving DecidableEq, Repr

/-- The slave port during an access. -/
def Access.bus : Access → Bus
  | .iordData => ⟨false, true, false, true, 0#_⟩
  | .iordControl => ⟨true, true, false, true, 0#_⟩
  | .iowrData data => ⟨false, true, true, false, data⟩
  | .iowrControl data => ⟨true, true, true, false, data⟩

namespace Link

variable (l : Link)

def reset : Link := ⟨Core.reset, [], []⟩

def next (i : Core.Inputs) : Link where
  hw := step l.hw i
  toHost := l.toHost ++ if l.hw.rVal then [l.hw.rDat] else []
  fromHost := l.fromHost ++ if wrRfifo l.hw i then [i.host.tDat] else []

/-- A cycle without an access. -/
def idle (h : Host) : Link := l.next ⟨Bus.idle, h⟩

/-- The word that an access reads, and the link after it.  The core asks for one wait cycle. -/
def access (a : Access) (h h' : Host) : BitVec 32 × Link :=
  (avReaddata (l.next ⟨a.bus, h⟩).hw, (l.next ⟨a.bus, h⟩).next ⟨a.bus, h'⟩)

/-- The bytes that the processor has written to the core. -/
def written : List (BitVec 8) :=
  l.toHost ++ (if l.hw.rVal then [l.hw.rDat] else []) ++ l.hw.wfifo

/-- The slave port is between two accesses. -/
structure Ready : Prop where
  avWaitrequest : l.hw.avWaitrequest = true
  fifoWr : l.hw.fifoWr = false
  read0 : l.hw.read0 = false

/-- The FIFOs keep to their depth, and an interrupt for a received byte has one in the FIFO. -/
structure Sound : Prop where
  wfifo_le : l.hw.wfifo.length ≤ depth
  fifoWr : l.hw.fifoWr = true → l.hw.wfifo.length < depth ∧ l.hw.avWaitrequest = false
  rfifo_le : l.hw.rfifo.length ≤ depth
  read0 : l.hw.read0 = true → l.hw.avWaitrequest = false
  pauseIrq : l.hw.pauseIrq = true → l.hw.rfifo ≠ [] ∨ l.hw.read0 = true
  fifoAF : l.hw.fifoAF = true → l.hw.rfifo ≠ []

variable {l} {i : Core.Inputs}

theorem written_next :
    (l.next i).written =
      l.written ++ if l.hw.fifoWr then [i.bus.avWritedata.setWidth 8] else [] := by
  cases hr : rdWfifo l.hw i with
  | false => simp [written, next, step, hr]
  | true =>
    have hne : l.hw.wfifo ≠ [] := by
      have hr' := hr
      simp only [rdWfifo, wfifoEmpty, Bool.and_eq_true, Bool.not_eq_true',
        List.isEmpty_eq_false_iff] at hr'
      exact hr'.2
    obtain ⟨x, rest, hx⟩ := List.exists_cons_of_ne_nil hne
    simp [written, next, step, hr, hx]

theorem rfifo_ne_of_fifoRd (h : fifoRd l.hw i = true) : l.hw.rfifo ≠ [] := by
  simp only [fifoRd, fifoEF, Bool.and_eq_true, Bool.not_eq_true', List.isEmpty_eq_false_iff] at h
  exact h.2

/-- What the core has taken from the host is what has been read and what is in the FIFO. -/
theorem fromHost_next {taken : List (BitVec 8)} (h : l.fromHost = taken ++ l.hw.rfifo) :
    (l.next i).fromHost =
      (taken ++ if fifoRd l.hw i then [l.hw.rfifo.headD l.hw.fifoRdata] else []) ++
        (l.next i).hw.rfifo := by
  cases hr : fifoRd l.hw i with
  | false => simp [next, step, hr, h]
  | true =>
    obtain ⟨x, rest, hx⟩ := List.exists_cons_of_ne_nil (rfifo_ne_of_fifoRd hr)
    simp [next, step, hr, h, hx]

theorem wfifo_length_next :
    (l.next i).hw.wfifo.length ≤ l.hw.wfifo.length + l.hw.fifoWr.toNat := by
  cases hw : l.hw.fifoWr <;> cases hr : rdWfifo l.hw i <;> simp [next, step, hw, hr]

theorem rfifo_next_ne (hr : fifoRd l.hw i = false) (h : l.hw.rfifo ≠ []) :
    (l.next i).hw.rfifo ≠ [] := by
  simp [next, step, hr, h]

theorem fill_toNat {fifo : List (BitVec 8)} (h : fifo.length ≤ depth) :
    (fill fifo).toNat = fifo.length := by
  rw [fill, BitVec.toNat_ofNat, Nat.mod_eq_of_lt]
  exact lt_of_le_of_lt h (by decide)

theorem fill_free_toNat {fifo : List (BitVec 8)} (h : fifo.length ≤ depth) :
    (0x40#7 - fill fifo).toNat = depth - fifo.length := by
  have hle : fifo.length ≤ 64 := h
  rw [BitVec.toNat_sub, fill_toNat h, show depth = 64 from rfl]
  simp
  omega

theorem Sound.reset : Sound Link.reset := by
  constructor <;> simp [Link.reset, Core.reset]

theorem Sound.next (h : l.Sound) (i : Core.Inputs) : (l.next i).Sound where
  wfifo_le := by
    refine wfifo_length_next.trans ?_
    cases hw : l.hw.fifoWr with
    | false => simpa using h.wfifo_le
    | true => exact (h.fifoWr hw).1
  fifoWr := by
    intro hw
    have hw' : write l.hw i = true ∧ l.hw.wfifo.length < depth := by
      simp only [Link.next, step, fifoFF, Bool.and_eq_true, Bool.not_eq_true',
        decide_eq_false_iff_not, not_le] at hw
      exact ⟨hw.1.1, hw.2⟩
    have hwait : l.hw.avWaitrequest = true := by
      have := hw'.1
      simp only [write, Bool.and_eq_true] at this
      exact this.2
    have hstill : l.hw.fifoWr = false := by
      by_contra hne
      have := (h.fifoWr (by simpa using hne)).2
      simp_all
    refine ⟨?_, ?_⟩
    · have := wfifo_length_next (l := l) (i := i)
      rw [hstill] at this
      exact lt_of_le_of_lt this hw'.2
    · simp only [write, Bool.and_eq_true, Bool.not_eq_true'] at hw'
      simp [Link.next, step, hw']
  rfifo_le := by
    have hle := h.rfifo_le
    cases hr : fifoRd l.hw i <;> cases hp : wrRfifo l.hw i <;>
      simp [Link.next, step, hr, hp] <;>
      simp_all [wrRfifo, rfifoFull] <;> omega
  read0 := by
    intro hr
    simp only [Link.next, step, Core.read, Bool.and_eq_true, Bool.not_eq_true'] at hr
    simp [Link.next, step, hr]
  pauseIrq := by
    intro hp
    cases hrd : fifoRd l.hw i with
    | true =>
      right
      simp only [fifoRd, Bool.and_eq_true] at hrd
      simpa [Link.next, step] using hrd.1
    | false =>
      left
      refine rfifo_next_ne hrd ?_
      simp only [Link.next, step] at hp
      split_ifs at hp with htp hr0
      · simp only [fifoEF, Bool.and_eq_true, Bool.not_eq_true', List.isEmpty_eq_false_iff] at htp
        exact htp.2
      · exact (h.pauseIrq hp).resolve_right hr0
  fifoAF := by
    intro hf
    have hfill : 56 ≤ l.hw.rfifo.length := by
      simp only [Link.next, step, decide_eq_true_eq, BitVec.le_def,
        fill_free_toNat h.rfifo_le] at hf
      have hd : depth = 64 := rfl
      simp at hf
      omega
    intro hnil
    have hlen := congrArg List.length hnil
    cases hr : fifoRd l.hw i <;> simp [Link.next, step, hr] at hlen <;> grind

/-- What happens in cycles in which the processor neither writes a byte nor reads one. -/
structure Passes (l l' : Link) : Prop where
  written : l'.written = l.written
  fromHost : ∀ taken, l.fromHost = taken ++ l.hw.rfifo → l'.fromHost = taken ++ l'.hw.rfifo
  wfifo_le : l'.hw.wfifo.length ≤ l.hw.wfifo.length
  rfifo_ne : l.hw.rfifo ≠ [] → l'.hw.rfifo ≠ []

theorem Passes.trans {l' l'' : Link} (h : Passes l l') (h' : Passes l' l'') : Passes l l'' where
  written := h'.written.trans h.written
  fromHost taken ht := h'.fromHost taken (h.fromHost taken ht)
  wfifo_le := h'.wfifo_le.trans h.wfifo_le
  rfifo_ne hne := h'.rfifo_ne (h.rfifo_ne hne)

theorem passes_next (hw : l.hw.fifoWr = false) (hr : fifoRd l.hw i = false) :
    Passes l (l.next i) where
  written := by simp [written_next, hw]
  fromHost taken h := by simpa [hr] using fromHost_next (i := i) h
  wfifo_le := by simpa [hw] using wfifo_length_next (l := l) (i := i)
  rfifo_ne := rfifo_next_ne hr

theorem ready_idle (x : Host) : (l.idle x).Ready := by
  constructor <;> simp [Link.idle, Link.next, step, Bus.idle, write, Core.read]

theorem passes_idle (h : l.Ready) (x : Host) : Passes l (l.idle x) :=
  passes_next h.fifoWr (by simp [fifoRd, Core.read, Bus.idle])

theorem idle_ien (x : Host) :
    (l.idle x).hw.ienAE = l.hw.ienAE ∧ (l.idle x).hw.ienAF = l.hw.ienAF := by
  simp [Link.idle, Link.next, step, Bus.idle, write]

variable {a : Access} {x z : Host}

/-- The core asks for a wait cycle in the first cycle of an access, and for no other. -/
theorem access_waits (h : l.Ready) (a : Access) (x : Host) :
    (l.next ⟨a.bus, x⟩).hw.avWaitrequest = false := by
  cases a <;> simp [next, step, Access.bus, h.avWaitrequest]

/-- The cycle after the wait cycle only ends the access. -/
theorem ready_next (hwait : l.hw.avWaitrequest = false) : (l.next i).Ready := by
  constructor <;> simp [next, step, write, Core.read, hwait]

theorem ien_next (hwait : l.hw.avWaitrequest = false) :
    (l.next i).hw.ienAE = l.hw.ienAE ∧ (l.next i).hw.ienAF = l.hw.ienAF := by
  simp [next, step, write, hwait]

theorem fifoRd_of_wait (hwait : l.hw.avWaitrequest = false) : fifoRd l.hw i = false := by
  simp [fifoRd, Core.read, hwait]

theorem ready_access (h : l.Ready) : (l.access a x z).2.Ready := ready_next (access_waits h a x)

theorem Sound.access (h : l.Sound) : (l.access a x z).2.Sound := (h.next _).next _

/-- An access that writes no byte and reads none. -/
theorem passes_access (h : l.Ready) (hr : fifoRd l.hw ⟨a.bus, x⟩ = false)
    (hw : (l.next ⟨a.bus, x⟩).hw.fifoWr = false) : Passes l (l.access a x z).2 :=
  (passes_next h.fifoWr hr).trans (passes_next hw (fifoRd_of_wait (access_waits h a x)))

theorem passes_iordControl (h : l.Ready) : Passes l (l.access .iordControl x z).2 :=
  passes_access h (by simp [fifoRd, Access.bus]) (by simp [next, step, Access.bus, write])

theorem passes_iowrControl {d : BitVec 32} (h : l.Ready) :
    Passes l (l.access (.iowrControl d) x z).2 :=
  passes_access h (by simp [fifoRd, Access.bus]) (by simp [next, step, Access.bus])

theorem ien_iowrControl {d : BitVec 32} (h : l.Ready) :
    (l.access (.iowrControl d) x z).2.hw.ienAE = d.getLsbD 1 ∧
      (l.access (.iowrControl d) x z).2.hw.ienAF = d.getLsbD 0 := by
  have hlast := ien_next (i := ⟨(Access.iowrControl d).bus, z⟩)
    (access_waits h (.iowrControl d) x)
  rw [access, hlast.1, hlast.2]
  simp [next, step, Access.bus, write, h.avWaitrequest]

theorem ien_access (h : l.Ready) (ha : ∀ data, a ≠ .iowrControl data) :
    (l.access a x z).2.hw.ienAE = l.hw.ienAE ∧ (l.access a x z).2.hw.ienAF = l.hw.ienAF := by
  have hlast := ien_next (i := ⟨a.bus, z⟩) (access_waits h a x)
  rw [access, hlast.1, hlast.2]
  cases a with
  | iowrControl data => exact absurd rfl (ha data)
  | _ => simp [next, step, Access.bus, write]

theorem and_twoPow_ne_zero {v : BitVec 32} {k : ℕ} (hk : k < 32) :
    v &&& BitVec.twoPow 32 k ≠ 0#32 ↔ v.getLsbD k = true := by
  have hne : BitVec.twoPow 32 k ≠ 0#32 := by
    intro h
    have hbit := congrArg (fun v => v.getLsbD k) h
    simp [hk] at hbit
  rw [BitVec.and_twoPow]
  cases v.getLsbD k <;> simp [hne]

theorem space_eq (v : BitVec 32) :
    (v &&& controlWspaceMsk) >>> controlWspaceOfst = v >>> 16 := by
  refine BitVec.eq_of_getLsbD_eq fun k hk => ?_
  have hmask : k + 16 < 32 → controlWspaceMsk.getLsbD (16 + k) = true := by
    intro hlt
    have hlt' : k < 16 := by omega
    interval_cases k <;> rfl
  simp only [controlWspaceOfst, BitVec.getLsbD_ushiftRight, BitVec.getLsbD_and]
  by_cases hlt : k + 16 < 32
  · simp [hmask hlt]
  · simp [show 32 ≤ 16 + k by omega]

theorem iordControl_eq :
    ∃ low, (l.access .iordControl x z).1 =
      statusWord (l.next ⟨Access.iordControl.bus, x⟩).hw
        (0x40#7 - fill (l.next ⟨Access.iordControl.bus, x⟩).hw.wfifo) low := by
  refine ⟨_, if_neg ?_⟩
  simp [next, step, Access.bus]

/-- The control register shows the interrupts that are pending in the wait cycle. -/
theorem ri_iff : (l.access .iordControl x z).1 &&& controlRiMsk ≠ 0#32 ↔
    ipenAF (l.next ⟨Access.iordControl.bus, x⟩).hw = true := by
  obtain ⟨low, heq⟩ := iordControl_eq (l := l) (x := x) (z := z)
  rw [heq, show controlRiMsk = BitVec.twoPow 32 8 from rfl, and_twoPow_ne_zero (by decide),
    statusWord_getLsbD]
  simp

theorem wi_iff : (l.access .iordControl x z).1 &&& controlWiMsk ≠ 0#32 ↔
    ipenAE (l.next ⟨Access.iordControl.bus, x⟩).hw = true := by
  obtain ⟨low, heq⟩ := iordControl_eq (l := l) (x := x) (z := z)
  rw [heq, show controlWiMsk = BitVec.twoPow 32 9 from rfl, and_twoPow_ne_zero (by decide),
    statusWord_getLsbD]
  simp

/-- The processor finds a byte in the FIFO when the core shows a pending read interrupt. -/
theorem rfifo_ne_of_ri (h : l.Ready) (hs : l.Sound)
    (hri : (l.access .iordControl x z).1 &&& controlRiMsk ≠ 0#32) :
    (l.access .iordControl x z).2.hw.rfifo ≠ [] := by
  have hmid : (l.next ⟨Access.iordControl.bus, x⟩).Sound := hs.next _
  have hpasses := passes_next (i := ⟨Access.iordControl.bus, z⟩)
    (l := l.next ⟨Access.iordControl.bus, x⟩) (by simp [next, step, Access.bus, write])
    (fifoRd_of_wait (access_waits h _ x))
  refine hpasses.rfifo_ne ?_
  have hpen := ri_iff.mp hri
  simp only [ipenAF, Bool.and_eq_true, Bool.or_eq_true] at hpen
  rcases hpen.2 with hpause | haf
  · exact (hmid.pauseIrq hpause).resolve_right (by simp [next, step, Access.bus])
  · exact hmid.fifoAF haf

/-- The control register shows the room for bytes in the wait cycle. -/
theorem space_toNat (hs : l.Sound) :
    (((l.access .iordControl x z).1 &&& controlWspaceMsk) >>> controlWspaceOfst).toNat =
      depth - (l.next ⟨Access.iordControl.bus, x⟩).hw.wfifo.length := by
  obtain ⟨low, heq⟩ := iordControl_eq (l := l) (x := x) (z := z)
  rw [space_eq, heq, statusWord_ushiftRight, BitVec.toNat_setWidth_of_le (by decide),
    fill_free_toNat (hs.next _).wfifo_le]

/-- The core has at least as much room for bytes as its control register has shown. -/
theorem space_le (h : l.Ready) (hs : l.Sound) :
    (((l.access .iordControl x z).1 &&& controlWspaceMsk) >>> controlWspaceOfst).toNat +
      (l.access .iordControl x z).2.hw.wfifo.length ≤ depth := by
  have hmid := (hs.next ⟨Access.iordControl.bus, x⟩).wfifo_le
  have hpasses := passes_next (i := ⟨Access.iordControl.bus, z⟩)
    (l := l.next ⟨Access.iordControl.bus, x⟩) (by simp [next, step, Access.bus, write])
    (fifoRd_of_wait (access_waits h _ x))
  have hle := hpasses.wfifo_le
  rw [space_toNat hs]
  change depth - _ + ((l.next _).next _).hw.wfifo.length ≤ depth
  omega

/-- The core shows room for bytes together with a pending write interrupt. -/
theorem space_pos_of_wi (h : l.Ready) (hs : l.Sound)
    (hwi : (l.access .iordControl x z).1 &&& controlWiMsk ≠ 0#32) :
    0 < (((l.access .iordControl x z).1 &&& controlWspaceMsk) >>> controlWspaceOfst).toNat := by
  have hpen := wi_iff.mp hwi
  have hfill : l.hw.wfifo.length ≤ 8 := by
    simp only [ipenAE, Bool.and_eq_true, next, step, decide_eq_true_eq, BitVec.le_def,
      fill_toNat hs.wfifo_le] at hpen
    exact hpen.2
  have hlen := wfifo_length_next (l := l) (i := ⟨Access.iordControl.bus, x⟩)
  rw [h.fifoWr] at hlen
  rw [space_toNat hs, show depth = 64 from rfl]
  simp at hlen
  omega

/-- The byte enters the FIFO when there is room for it. -/
theorem iowrData {d : BitVec 32} (h : l.Ready) (hroom : l.hw.wfifo.length < depth) :
    (l.access (.iowrData d) x z).2.written = l.written ++ [d.setWidth 8] ∧
      (l.access (.iowrData d) x z).2.hw.wfifo.length ≤ l.hw.wfifo.length + 1 := by
  have hwr : (l.next ⟨(Access.iowrData d).bus, x⟩).hw.fifoWr = true := by
    simp [next, step, Access.bus, write, h.avWaitrequest, fifoFF, hroom]
  have hlen := wfifo_length_next (l := l) (i := ⟨(Access.iowrData d).bus, x⟩)
  have hlen' := wfifo_length_next (l := l.next ⟨(Access.iowrData d).bus, x⟩)
    (i := ⟨(Access.iowrData d).bus, z⟩)
  rw [h.fifoWr] at hlen
  rw [hwr] at hlen'
  refine ⟨?_, ?_⟩
  · rw [access, written_next, written_next, h.fifoWr, hwr]
    simp [Access.bus]
  · exact hlen'.trans (Nat.add_le_add_right hlen 1)

theorem iowrData_rfifo {d : BitVec 32} (h : l.Ready) :
    (∀ taken, l.fromHost = taken ++ l.hw.rfifo →
      (l.access (.iowrData d) x z).2.fromHost =
        taken ++ (l.access (.iowrData d) x z).2.hw.rfifo) ∧
    (l.hw.rfifo ≠ [] → (l.access (.iowrData d) x z).2.hw.rfifo ≠ []) := by
  have hr : fifoRd l.hw ⟨(Access.iowrData d).bus, x⟩ = false := by
    simp [fifoRd, Core.read, Access.bus]
  have hr' := fifoRd_of_wait (i := ⟨(Access.iowrData d).bus, z⟩)
    (access_waits h (.iowrData d) x)
  refine ⟨fun taken ht => ?_, fun hne => rfifo_next_ne hr' (rfifo_next_ne hr hne)⟩
  have hfirst := fromHost_next (i := ⟨(Access.iowrData d).bus, x⟩) ht
  rw [hr, if_neg Bool.false_ne_true, List.append_nil] at hfirst
  have hsecond := fromHost_next (i := ⟨(Access.iowrData d).bus, z⟩) hfirst
  rwa [hr', if_neg Bool.false_ne_true, List.append_nil] at hsecond

theorem dataByte_eq (data : BitVec 32) : dataByte data = data.setWidth 8 := by
  refine BitVec.eq_of_getLsbD_eq fun k hk => ?_
  have hmask : dataDataMsk.getLsbD k = true := by interval_cases k <;> rfl
  simp [dataByte, hmask, hk]

theorem iordData_eq (h : l.Ready) :
    (l.access .iordData x z).1 =
      statusWord (l.next ⟨Access.iordData.bus, x⟩).hw
        (fill (l.next ⟨Access.iordData.bus, x⟩).hw.rfifo)
        (l.next ⟨Access.iordData.bus, x⟩).hw.fifoRdata := by
  refine if_pos ?_
  simp [next, step, Access.bus, Core.read, h.avWaitrequest]

/-- The data register is valid exactly if the FIFO has a byte, which leaves it. -/
theorem iordData (h : l.Ready) :
    ((l.access .iordData x z).1 &&& dataRvalidMsk = 0#32 ↔ l.hw.rfifo = []) ∧
    (l.access .iordData x z).2.written = l.written ∧
    (l.access .iordData x z).2.hw.wfifo.length ≤ l.hw.wfifo.length ∧
    ∀ taken, l.fromHost = taken ++ l.hw.rfifo →
      (l.access .iordData x z).2.fromHost =
        (taken ++ if l.hw.rfifo = [] then [] else [dataByte (l.access .iordData x z).1]) ++
          (l.access .iordData x z).2.hw.rfifo := by
  have hwr : (l.next ⟨Access.iordData.bus, x⟩).hw.fifoWr = false := by
    simp [next, step, Access.bus, write]
  have hlast := passes_next (i := ⟨Access.iordData.bus, z⟩) hwr
    (fifoRd_of_wait (access_waits h .iordData x))
  have hrd : fifoRd l.hw ⟨Access.iordData.bus, x⟩ = !l.hw.rfifo.isEmpty := by
    simp [fifoRd, Core.read, Access.bus, fifoEF, h.avWaitrequest]
  refine ⟨?_, ?_, ?_, fun taken ht => ?_⟩
  · rw [iordData_eq h, ← not_iff_not, ← ne_eq,
      show dataRvalidMsk = BitVec.twoPow 32 15 from rfl, and_twoPow_ne_zero (by decide),
      statusWord_getLsbD]
    simp [next, step, Access.bus, Core.read, h.avWaitrequest, fifoEF]
  · rw [access, hlast.written, written_next, h.fifoWr]
    simp
  · refine hlast.wfifo_le.trans ?_
    simpa [h.fifoWr] using wfifo_length_next (l := l) (i := ⟨Access.iordData.bus, x⟩)
  · refine hlast.fromHost _ ?_
    rw [fromHost_next (i := ⟨Access.iordData.bus, x⟩) ht, hrd, dataByte_eq, iordData_eq h,
      statusWord_setWidth]
    cases hq : l.hw.rfifo with
    | nil => simp
    | cons y rest => simp [next, step, hrd, hq]

end Link

end AvalonCores.JtagUart
