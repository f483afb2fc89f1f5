import Mathlib.Tactic

/-! A log of the work done on a sequence of jobs, one entry a job.  Work is added to the newest
entry, and a new job opens an entry of its own. -/

namespace AvalonCores.Sync

/-- The list with `n` added to its last entry. -/
def addLast (n : ℕ) : List ℕ → List ℕ
  | [] => []
  | [m] => [m + n]
  | m :: m' :: ms => m :: addLast n (m' :: ms)

theorem addLast_append (n m : ℕ) (ms : List ℕ) : addLast n (ms ++ [m]) = ms ++ [m + n] := by
  induction ms with
  | nil => rfl
  | cons m' ms ih =>
    cases ms with
    | nil => rfl
    | cons m'' ms => simpa [addLast] using ih

theorem sum_addLast (n : ℕ) {ms : List ℕ} (h : ms ≠ []) : (addLast n ms).sum = ms.sum + n := by
  rw [← List.dropLast_append_getLast h, addLast_append]
  simp [Nat.add_assoc]

/-- The last of the jobs `cs` is `c`, of which `n` units are done, and the units done of the earlier
ones are as `complete` asks. -/
def Logged {α : Type*} (complete : α → ℕ → Prop) (cs : List α) (log : List ℕ) (c : α) (n : ℕ) :
    Prop :=
  cs = [] ∧ log = [] ∨
    ∃ ds ns, cs = ds ++ [c] ∧ log = ns ++ [n] ∧ List.Forall₂ complete ds ns

variable {α : Type*} {complete : α → ℕ → Prop} {cs : List α} {log : List ℕ} {c : α} {n : ℕ}

theorem Logged.add (h : Logged complete cs log c n) (m : ℕ) :
    Logged complete cs (addLast m log) c (n + m) := by
  rcases h with ⟨rfl, rfl⟩ | ⟨ds, ns, rfl, rfl, hall⟩
  · exact .inl ⟨rfl, rfl⟩
  · exact .inr ⟨ds, ns, rfl, addLast_append m n ns, hall⟩

theorem Logged.all (h : Logged complete cs log c n) (hc : complete c n) :
    List.Forall₂ complete cs log := by
  rcases h with ⟨rfl, rfl⟩ | ⟨ds, ns, rfl, rfl, hall⟩
  · exact .nil
  · exact List.rel_append hall (.cons hc .nil)

theorem Logged.older (h : Logged complete cs log c n) {k : ℕ} (hk : k + 1 < cs.length) :
    ∃ d m, cs[k]? = some d ∧ log[k]? = some m ∧ complete d m := by
  rcases h with ⟨rfl, rfl⟩ | ⟨ds, ns, rfl, rfl, hall⟩
  · simp at hk
  · have hlen := hall.length_eq
    have hds : k < ds.length := by simpa using hk
    refine ⟨ds[k], ns[k], ?_, ?_, hall.get hds (hlen ▸ hds)⟩
    · rw [List.getElem?_append_left hds, List.getElem?_eq_getElem hds]
    · rw [List.getElem?_append_left (hlen ▸ hds), List.getElem?_eq_getElem (hlen ▸ hds)]

theorem Logged.newest (h : Logged complete cs log c n) {k : ℕ} (hk : k + 1 = cs.length) :
    cs[k]? = some c ∧ log[k]? = some n := by
  rcases h with ⟨rfl, rfl⟩ | ⟨ds, ns, rfl, rfl, hall⟩
  · simp at hk
  · have hds : k = ds.length := by simpa using hk
    have hns : k = ns.length := hds.trans hall.length_eq
    exact ⟨by simp [hds], by simp [hns]⟩

/-- The units done of jobs that are those of `f`, when the earlier ones are done exactly. -/
theorem Logged.sum_eq {f : ℕ → α} {size : α → ℕ} (h : Logged (fun c n => n = size c) cs log c n)
    (hcs : cs = (List.range cs.length).map f) : cs = [] ∧ log = [] ∨
      ∃ k, cs.length = k + 1 ∧ c = f k ∧ log ≠ [] ∧
        log.sum = ((List.range k).map fun j => size (f j)).sum + n := by
  rcases h with hnone | ⟨ds, ns, hds, rfl, hall⟩
  · exact .inl hnone
  · right
    have hlen : cs.length = ds.length + 1 := by simp [hds]
    rw [hlen, List.range_succ, List.map_append, hds] at hcs
    obtain ⟨hd, hc⟩ := List.append_inj' hcs rfl
    have hsizes : ns = ds.map size := by
      have hmap : List.Forall₂ Eq (ds.map size) ns :=
        List.forall₂_map_left_iff.mpr (hall.imp fun _ _ hn => hn.symm)
      rw [List.forall₂_eq_eq_eq] at hmap
      exact hmap.symm
    refine ⟨ds.length, hlen, by simpa using hc, by simp, ?_⟩
    rw [List.sum_append, hsizes, hd]
    simp [Function.comp_def]

/-- A new job follows when the one before is done. -/
theorem Logged.load (h : Logged complete cs log c n) (hc : complete c n) (c' : α) :
    Logged complete (cs ++ [c']) (log ++ [0]) c' 0 :=
  .inr ⟨cs, log, rfl, rfl, h.all hc⟩

end AvalonCores.Sync
