import Mathlib.Tactic

/-! Programs that reach a device through stores and loads.  `Program.eval` is their meaning over a
register file, and `Port.Runs` their execution on a circuit, with any number of cycles between two
accesses.  `Port.Implements` is the obligation on the circuit, one cycle at a time, from which
`Implements.eval` gives the meaning of every execution. -/

namespace AvalonCores.Sync

/-- A program that stores `S`, loads a `V` from each `L`, and ends with a result. -/
inductive Program (S L V α : Type) where
  | done (result : α)
  | store (access : S) (rest : Program S L V α)
  | load (access : L) (rest : V → Program S L V α)

namespace Program

variable {S L V α β : Type}

def bind : Program S L V α → (α → Program S L V β) → Program S L V β
  | done a, k => k a
  | store x p, k => store x (p.bind k)
  | load l p, k => load l fun v => (p v).bind k

instance : Monad (Program S L V) where
  pure := done
  bind := bind

def write (x : S) : Program S L V Unit := store x (done ())

def read (l : L) : Program S L V V := load l done

/-- Every access of the program is one that `okS` and `okL` admit. -/
def Uses (okS : S → Prop) (okL : L → Prop) : Program S L V α → Prop
  | done _ => True
  | store x p => okS x ∧ p.Uses okS okL
  | load l p => okL l ∧ ∀ v, (p v).Uses okS okL

section Uses

variable {okS : S → Prop} {okL : L → Prop}

@[simp] theorem uses_pure (a : α) : (pure a : Program S L V α).Uses okS okL := trivial

@[simp] theorem uses_write (x : S) : (write x : Program S L V Unit).Uses okS okL ↔ okS x :=
  and_iff_left trivial

@[simp] theorem uses_read (l : L) : (read l : Program S L V V).Uses okS okL ↔ okL l :=
  and_iff_left fun _ => trivial

theorem uses_bind {p : Program S L V α} {k : α → Program S L V β} (hp : p.Uses okS okL)
    (hk : ∀ a, (k a).Uses okS okL) : (p >>= k).Uses okS okL := by
  induction p with
  | done a => exact hk a
  | store x p ih => exact ⟨hp.1, ih hp.2⟩
  | load l p ih => exact ⟨hp.1, fun v => ih v (hp.2 v)⟩

end Uses

end Program

/-- What a store does to the registers `ρ`, and what a load returns from them. -/
structure RegisterFile (S L V ρ : Type) where
  store : S → ρ → ρ
  load : L → ρ → V

namespace Program

variable {S L V ρ α β : Type} {F : RegisterFile S L V ρ} {r : ρ}

/-- The result of the program and the registers that it leaves. -/
def eval (F : RegisterFile S L V ρ) : Program S L V α → ρ → α × ρ
  | done a, r => (a, r)
  | store x p, r => p.eval F (F.store x r)
  | load l p, r => (p (F.load l r)).eval F r

@[simp] theorem eval_pure (a : α) : (pure a : Program S L V α).eval F r = (a, r) := rfl

@[simp] theorem eval_write (x : S) :
    (write x : Program S L V Unit).eval F r = ((), F.store x r) := rfl

@[simp] theorem eval_read (l : L) :
    (read l : Program S L V V).eval F r = (F.load l r, r) := rfl

@[simp] theorem eval_bind (p : Program S L V α) (k : α → Program S L V β) :
    (p >>= k).eval F r = (k (p.eval F r).1).eval F (p.eval F r).2 := by
  induction p generalizing r with
  | done a => rfl
  | store x p ih => exact ih
  | load l p ih => exact ih _

end Program

/-- A circuit with a port for stores and loads.  `idle`, `store` and `load` set the signals of the
port in the inputs of a cycle, an access with `waits` is held for another cycle, and `value` is what
a load returns in the cycle after it. -/
structure Port (S L V σ ι : Type) where
  step : σ → ι → σ
  idle : ι → ι
  store : S → ι → ι
  load : L → ι → ι
  waits : σ → ι → Bool
  value : L → σ → V

namespace Port

variable {S L V σ ι ρ α β : Type} (P : Port S L V σ ι)

/-- The program takes the circuit from one state to another and returns a result. -/
inductive Runs : σ → Program S L V α → σ → α → Prop
  | done (s : σ) (a : α) : Runs s (.done a) s a
  | idle {s s' : σ} {p : Program S L V α} {a : α} (i : ι) :
      Runs (P.step s (P.idle i)) p s' a → Runs s p s' a
  | holdStore {s s' : σ} {x : S} {p : Program S L V α} {a : α} (i : ι) :
      P.waits s (P.store x i) = true →
      Runs (P.step s (P.store x i)) (.store x p) s' a → Runs s (.store x p) s' a
  | store {s s' : σ} {x : S} {p : Program S L V α} {a : α} (i : ι) :
      P.waits s (P.store x i) = false →
      Runs (P.step s (P.store x i)) p s' a → Runs s (.store x p) s' a
  | holdLoad {s s' : σ} {l : L} {p : V → Program S L V α} {a : α} (i : ι) :
      P.waits s (P.load l i) = true →
      Runs (P.step s (P.load l i)) (.load l p) s' a → Runs s (.load l p) s' a
  | load {s s' : σ} {l : L} {p : V → Program S L V α} {a : α} (i : ι) :
      P.waits s (P.load l i) = false →
      Runs (P.step s (P.load l i)) (p (P.value l (P.step s (P.load l i)))) s' a →
      Runs s (.load l p) s' a

/-- What every cycle keeps, the cycles of the admitted accesses included, an execution keeps. -/
theorem Runs.invariant {P : Port S L V σ ι} {okS : S → Prop} {okL : L → Prop} {I : σ → Prop}
    (hIdle : ∀ s i, I s → I (P.step s (P.idle i)))
    (hStore : ∀ s x i, okS x → I s → I (P.step s (P.store x i)))
    (hLoad : ∀ s l i, okL l → I s → I (P.step s (P.load l i))) {s s' : σ} {p : Program S L V α}
    {a : α} (hr : P.Runs s p s' a) (hp : p.Uses okS okL) (hs : I s) : I s' := by
  induction hr with
  | done s a => exact hs
  | idle i _ ih => exact ih hp (hIdle _ i hs)
  | holdStore i _ _ ih => exact ih hp (hStore _ _ i hp.1 hs)
  | store i _ _ ih => exact ih hp.2 (hStore _ _ i hp.1 hs)
  | holdLoad i _ _ ih => exact ih hp (hLoad _ _ i hp.1 hs)
  | load i _ _ ih => exact ih (hp.2 _) (hLoad _ _ i hp.1 hs)

/-- An execution of two programs in turn is one of the first and then one of the second. -/
theorem Runs.of_bind {P : Port S L V σ ι} {s s' : σ} {p : Program S L V α}
    {k : α → Program S L V β} {b : β} (hr : P.Runs s (p >>= k) s' b) :
    ∃ t a, P.Runs s p t a ∧ P.Runs t (k a) s' b := by
  induction p generalizing s with
  | done a => exact ⟨s, a, .done s a, hr⟩
  | store x p ihp =>
    generalize hq : (Program.store x p >>= k) = q at hr
    induction hr with
    | idle i _ ih =>
      obtain ⟨t, a, hp, hk⟩ := ih ihp hq
      exact ⟨t, a, .idle i hp, hk⟩
    | holdStore i hwaits _ ih =>
      obtain ⟨t, a, hp, hk⟩ := ih ihp hq
      cases hq
      exact ⟨t, a, .holdStore i hwaits hp, hk⟩
    | store i hwaits hr =>
      cases hq
      obtain ⟨t, a, hp, hk⟩ := ihp hr
      exact ⟨t, a, .store i hwaits hp, hk⟩
    | _ => cases hq
  | load l p ihp =>
    generalize hq : (Program.load l p >>= k) = q at hr
    induction hr with
    | idle i _ ih =>
      obtain ⟨t, a, hp, hk⟩ := ih ihp hq
      exact ⟨t, a, .idle i hp, hk⟩
    | holdLoad i hwaits _ ih =>
      obtain ⟨t, a, hp, hk⟩ := ih ihp hq
      cases hq
      exact ⟨t, a, .holdLoad i hwaits hp, hk⟩
    | load i hwaits hr =>
      cases hq
      obtain ⟨t, a, hp, hk⟩ := ihp _ hr
      exact ⟨t, a, .load i hwaits hp, hk⟩
    | _ => cases hq

/-- In the states of `inv`, the circuit is the register file `F`, which `view` shows, for the
accesses that `okS` and `okL` admit. -/
structure Implements (F : RegisterFile S L V ρ) (view : σ → ρ) (inv : σ → Prop) (okS : S → Prop)
    (okL : L → Prop) : Prop where
  idle : ∀ {s}, inv s → ∀ i, inv (P.step s (P.idle i)) ∧ view (P.step s (P.idle i)) = view s
  store : ∀ {s x}, inv s → okS x → ∀ i, P.waits s (P.store x i) = false ∧
    inv (P.step s (P.store x i)) ∧ view (P.step s (P.store x i)) = F.store x (view s)
  load : ∀ {s l}, inv s → okL l → ∀ i, P.waits s (P.load l i) = false ∧
    inv (P.step s (P.load l i)) ∧ view (P.step s (P.load l i)) = view s ∧
    P.value l (P.step s (P.load l i)) = F.load l (view s)

variable {P} {F : RegisterFile S L V ρ} {view : σ → ρ} {inv : σ → Prop} {okS : S → Prop}
  {okL : L → Prop} {s s' : σ} {p : Program S L V α} {a : α}

/-- Every execution ends with the result and the registers of the program's meaning. -/
theorem Implements.eval (h : P.Implements F view inv okS okL) (hr : P.Runs s p s' a) (hs : inv s)
    (hp : p.Uses okS okL) : inv s' ∧ (a, view s') = p.eval F (view s) := by
  induction hr with
  | done s a => exact ⟨hs, rfl⟩
  | idle i _ ih =>
    obtain ⟨hinv, hview⟩ := h.idle hs i
    rw [← hview]
    exact ih hinv hp
  | holdStore i hwaits =>
    rw [(h.store hs hp.1 i).1] at hwaits
    contradiction
  | store i _ _ ih =>
    obtain ⟨-, hinv, hview⟩ := h.store hs hp.1 i
    rw [Program.eval, ← hview]
    exact ih hinv hp.2
  | holdLoad i hwaits =>
    rw [(h.load hs hp.1 i).1] at hwaits
    contradiction
  | load i _ _ ih =>
    obtain ⟨-, hinv, hview, hvalue⟩ := h.load hs hp.1 i
    rw [Program.eval, ← hvalue, ← hview]
    exact ih hinv (hp.2 _)

/-- A store that begins in a state of `inv`, in which it does not wait, is carried out in a state
with the same registers. -/
theorem Implements.store_cycle (h : P.Implements F view inv okS okL) {x : S}
    (hr : P.Runs s (.store x p) s' a) (hs : inv s)
    (hwaits : ∀ t i, inv t → P.waits t (P.store x i) = false) :
    ∃ t i, inv t ∧ view t = view s ∧ P.Runs (P.step t (P.store x i)) p s' a := by
  generalize hq : Program.store x p = q at hr
  induction hr with
  | idle i _ ih =>
    obtain ⟨hinv, hview⟩ := h.idle hs i
    obtain ⟨t, j, ht, hv, hr⟩ := ih hinv hq
    exact ⟨t, j, ht, hv.trans hview, hr⟩
  | holdStore i hw =>
    cases hq
    rw [hwaits _ i hs] at hw
    contradiction
  | store i _ hr =>
    cases hq
    exact ⟨_, i, hs, rfl, hr⟩
  | _ => cases hq

/-- Every program has an execution. -/
theorem Implements.runs [Nonempty ι] (h : P.Implements F view inv okS okL) :
    ∀ (p : Program S L V α) {s : σ}, inv s → p.Uses okS okL → ∃ s' a, P.Runs s p s' a
  | .done a, s, _, _ => ⟨s, a, .done s a⟩
  | .store x p, s, hs, hp => by
    obtain ⟨hwaits, hinv, -⟩ := h.store hs hp.1 (Classical.arbitrary ι)
    obtain ⟨s', a, hr⟩ := h.runs p hinv hp.2
    exact ⟨s', a, .store _ hwaits hr⟩
  | .load l p, s, hs, hp => by
    obtain ⟨hwaits, hinv, -⟩ := h.load hs hp.1 (Classical.arbitrary ι)
    obtain ⟨s', a, hr⟩ := h.runs (p _) hinv (hp.2 _)
    exact ⟨s', a, .load _ hwaits hr⟩

section Logging

variable {ε : Type}

/-- The port of a circuit whose events are logged. -/
def logging (P : Port S L V σ ι) (event : σ → ι → List ε) : Port S L V (σ × List ε) ι where
  step x i := (P.step x.1 i, x.2 ++ event x.1 i)
  idle := P.idle
  store := P.store
  load := P.load
  waits x := P.waits x.1
  value l x := P.value l x.1

/-- The admitted accesses log nothing when none of their cycles has an event. -/
theorem Implements.logging (h : P.Implements F view inv okS okL) {event : σ → ι → List ε}
    (hidle : ∀ {s}, inv s → ∀ i, event s (P.idle i) = [])
    (hstore : ∀ {s x}, inv s → okS x → ∀ i, event s (P.store x i) = [])
    (hload : ∀ {s l}, inv s → okL l → ∀ i, event s (P.load l i) = []) (log : List ε) :
    (P.logging event).Implements F (fun x => view x.1) (fun x => inv x.1 ∧ x.2 = log) okS okL where
  idle hx i := by
    obtain ⟨hs, rfl⟩ := hx
    obtain ⟨hinv, hview⟩ := h.idle hs i
    exact ⟨⟨hinv, by simp [Port.logging, hidle hs i]⟩, hview⟩
  store hx hok i := by
    obtain ⟨hs, rfl⟩ := hx
    obtain ⟨hwaits, hinv, hview⟩ := h.store hs hok i
    exact ⟨hwaits, ⟨hinv, by simp [Port.logging, hstore hs hok i]⟩, hview⟩
  load hx hok i := by
    obtain ⟨hs, rfl⟩ := hx
    obtain ⟨hwaits, hinv, hview, hvalue⟩ := h.load hs hok i
    exact ⟨hwaits, ⟨hinv, by simp [Port.logging, hload hs hok i]⟩, hview, hvalue⟩

end Logging

section Accessors

variable {set : Program S L V α} {get : Program S L V β} {v : β}

/-- Reading after `set` returns `v`. -/
def Returns (P : Port S L V σ ι) (s : σ) (set : Program S L V α) (get : Program S L V β) (v : β) :
    Prop :=
  ∀ s₁ a, P.Runs s set s₁ a → ∀ s₂ b, P.Runs s₁ get s₂ b → b = v

/-- Reading after `set` returns what reading before it returned. -/
def Preserves (P : Port S L V σ ι) (s : σ) (set : Program S L V α) (get : Program S L V β) : Prop :=
  ∀ s₀ b, P.Runs s get s₀ b → P.Returns s₀ set get b

theorem Implements.returns_eval_iff [Nonempty ι] (h : P.Implements F view inv okS okL) (hs : inv s)
    (hset : set.Uses okS okL) (hget : get.Uses okS okL) :
    P.Returns s set get v ↔ (get.eval F (set.eval F (view s)).2).1 = v := by
  constructor
  · intro hreturns
    obtain ⟨s₁, a, hr₁⟩ := h.runs set hs hset
    obtain ⟨hs₁, h₁⟩ := h.eval hr₁ hs hset
    obtain ⟨s₂, b, hr₂⟩ := h.runs get hs₁ hget
    obtain ⟨-, h₂⟩ := h.eval hr₂ hs₁ hget
    rw [← h₁, ← h₂]
    exact hreturns s₁ a hr₁ s₂ b hr₂
  · intro heval s₁ a hr₁ s₂ b hr₂
    obtain ⟨hs₁, h₁⟩ := h.eval hr₁ hs hset
    obtain ⟨-, h₂⟩ := h.eval hr₂ hs₁ hget
    rwa [← h₁, ← h₂] at heval

/-- A program that only reads leaves the registers as they are. -/
theorem Implements.preserves_iff [Nonempty ι] (h : P.Implements F view inv okS okL) (hs : inv s)
    (hset : set.Uses okS okL) (hget : get.Uses okS okL) (hreads : ∀ r, (get.eval F r).2 = r) :
    P.Preserves s set get ↔
      (get.eval F (set.eval F (view s)).2).1 = (get.eval F (view s)).1 := by
  have hkeeps {s₀ : σ} {b : β} (hr : P.Runs s get s₀ b) :
      inv s₀ ∧ b = (get.eval F (view s)).1 ∧ view s₀ = view s := by
    obtain ⟨hinv, heval⟩ := h.eval hr hs hget
    exact ⟨hinv, congrArg Prod.fst heval, (congrArg Prod.snd heval).trans (hreads _)⟩
  constructor
  · intro hpreserves
    obtain ⟨s₀, b, hr⟩ := h.runs get hs hget
    obtain ⟨hs₀, hb, hview⟩ := hkeeps hr
    have hreturns := (h.returns_eval_iff hs₀ hset hget).1 (hpreserves s₀ b hr)
    rwa [hview, hb] at hreturns
  · intro heval s₀ b hr
    obtain ⟨hs₀, hb, hview⟩ := hkeeps hr
    rw [h.returns_eval_iff hs₀ hset hget, hview, hb]
    exact heval

end Accessors

end Port

end AvalonCores.Sync
