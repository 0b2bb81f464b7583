import BlazeKV.Proofs.SwissMap
import BlazeKV.Spec.SwissBackends

/-! The group primitives of any two builds lead to the same probes, although a
lane comes up as often as its mask has bits for it. -/

set_option linter.unusedSectionVars false

namespace BlazeKV

namespace GroupOps

variable (G G' : GroupOps)

theorem find?_lanes_eq (g : ℕ → UInt8) (needle : UInt8) (p : ℕ → Bool) :
    (G.lanes (G.matchBits g needle)).find? p = (G'.lanes (G'.matchBits g needle)).find? p :=
  Lib.find?_congr_mem (Lib.lanes_sorted _ _ _) (Lib.lanes_sorted _ _ _)
    (fun l => (G.mem_lanes g needle l).trans (G'.mem_lanes g needle l).symm) p

theorem matchEmpty_eq (g : ℕ → UInt8) : G.matchEmpty g = G'.matchEmpty g := by
  rw [Bool.eq_iff_iff, G.matchEmpty_iff, G'.matchEmpty_iff]

theorem free_ne_zero_iff (g : ℕ → UInt8) :
    G.matchEmptyOrDeleted g ≠ 0 ↔ G'.matchEmptyOrDeleted g ≠ 0 := by
  rw [ne_eq, ne_eq, G.free_eq_zero_iff, G'.free_eq_zero_iff]

/-- The lowest free lane is the same. -/
theorem ctz_free_eq {g : ℕ → UInt8} (h : G.matchEmptyOrDeleted g ≠ 0) :
    G.ctz (G.matchEmptyOrDeleted g) = G'.ctz (G'.matchEmptyOrDeleted g) := by
  obtain ⟨-, hfree, hlow⟩ := G.first_free g h
  obtain ⟨-, hfree', hlow'⟩ := G'.first_free g ((G.free_ne_zero_iff G' g).1 h)
  rcases lt_trichotomy (G.ctz (G.matchEmptyOrDeleted g))
    (G'.ctz (G'.matchEmptyOrDeleted g)) with hlt | heq | hgt
  · exact absurd (hlow' _ hlt) (by rw [ctz, hfree]; decide)
  · exact heq
  · exact absurd (hlow _ hgt) (by rw [ctz, hfree']; decide)

end GroupOps

namespace SwissTable

variable {κ α : Type} [DecidableEq κ] [Inhabited κ] [Inhabited α]

section AnyTwo

variable (G G' : GroupOps) (hash : κ → ℕ) (t : SwissTable κ α)

theorem matchAt_eq (pos : ℕ) (needle : UInt8) (k : κ) :
    t.matchAt G pos needle k = t.matchAt G' pos needle k := by
  rw [matchAt, matchAt, G.find?_lanes_eq G']

theorem findLoop_eq (needle : UInt8) (k : κ) (fuel pos : ℕ) :
    t.findLoop G needle k fuel pos = t.findLoop G' needle k fuel pos := by
  induction fuel generalizing pos with
  | zero => rfl
  | succ fuel ih => simp only [findLoop, t.matchAt_eq G G', G.matchEmpty_eq G', ih]

theorem insertLoop_eq (needle : UInt8) (k : κ) (fuel pos : ℕ) (insertAt : Option ℕ) :
    t.insertLoop G needle k fuel pos insertAt = t.insertLoop G' needle k fuel pos insertAt := by
  induction fuel generalizing pos insertAt with
  | zero => rfl
  | succ fuel ih =>
    simp only [insertLoop, t.matchAt_eq G G', G.matchEmpty_eq G', ih]
    by_cases h : G.matchEmptyOrDeleted (t.group pos) ≠ 0
    · rw [if_pos h, if_pos ((G.free_ne_zero_iff G' _).1 h), G.ctz_free_eq G' h]
    · rw [if_neg h, if_neg fun h' => h ((G.free_ne_zero_iff G' _).2 h')]

theorem insertMovedLoop_eq (fuel pos : ℕ) :
    t.insertMovedLoop G fuel pos = t.insertMovedLoop G' fuel pos := by
  induction fuel generalizing pos with
  | zero => rfl
  | succ fuel ih =>
    simp only [insertMovedLoop, ih]
    by_cases h : G.matchEmptyOrDeleted (t.group pos) ≠ 0
    · rw [if_pos h, if_pos ((G.free_ne_zero_iff G' _).1 h), G.ctz_free_eq G' h]
    · rw [if_neg h, if_neg fun h' => h ((G.free_ne_zero_iff G' _).2 h')]

theorem rehash_eq (n : ℕ) : t.rehash G hash n = t.rehash G' hash n := by
  unfold rehash insertMoved
  simp only [insertMovedLoop_eq G G']

theorem makeRoom_eq : t.makeRoom G hash = t.makeRoom G' hash := by
  unfold makeRoom
  simp only [rehash_eq G G']

theorem findSlot_eq (k : κ) : t.findSlot G hash k = t.findSlot G' hash k := t.findLoop_eq G G' _ _ _ _

theorem find_eq (k : κ) : t.find G hash k = t.find G' hash k := by
  rw [find, find, t.findSlot_eq G G']

theorem erase_eq (k : κ) : t.erase G hash k = t.erase G' hash k := by
  rw [erase, erase, t.findSlot_eq G G']

theorem insertOrAssign_eq (k : κ) (v : α) :
    t.insertOrAssign G hash k v = t.insertOrAssign G' hash k v := by
  unfold insertOrAssign
  rw [t.makeRoom_eq G G']
  simp only [insertLoop_eq G G']

theorem exec_eq (op : Op κ α) : t.exec G hash op = t.exec G' hash op := by
  cases op with
  | insertOrAssign k v => rw [exec, exec, t.insertOrAssign_eq G G']
  | erase k => rw [exec, exec, t.erase_eq G G']
  | find k => rw [exec, exec, t.find_eq G G']
  | reserve n => rw [exec, exec, reserve, reserve, t.rehash_eq G G']
  | clear => rfl

end AnyTwo

/-- The builds of the header. -/
def builds : List GroupOps := [.scalar, .sse2, .neon]

/-- Every sequence of calls leaves the same table and gives the same results in every build, and
on that table each further call does. -/
theorem builds_agree (hash : κ → ℕ) (ops : List (Op κ α)) :
    ∃ t rets, (∀ G ∈ builds, Lib.run (exec G hash) new ops = some (t, rets)) ∧ ∀ k v,
      (∃ i r, ∀ G ∈ builds, t.findSlot G hash k = some i ∧ t.find G hash k = some r) ∧
      (∃ r, ∀ G ∈ builds, t.insertOrAssign G hash k v = some r) ∧
      (∃ r, ∀ G ∈ builds, t.erase G hash k = some r) := by
  have hstep : Lib.StepRefines (Represents hash) (exec .scalar hash) (mapExec (κ := κ) (α := α))
      fun _ _ => True := exec_refines
  obtain ⟨t, hrun, hR⟩ := Lib.run_refines hstep ops represents_new (Lib.runOk_true _ _ _)
  refine ⟨t, (Lib.runTotal mapExec (fun _ => none) ops).2, fun G _ => ?_, fun k v => ⟨?_, ?_, ?_⟩⟩
  · have hexec : exec G hash = exec (κ := κ) (α := α) .scalar hash :=
      funext fun t => funext fun op => t.exec_eq G .scalar hash op
    rw [hexec, hrun]
  · obtain ⟨r, hr, -⟩ := hR.inv.find_spec (G := .scalar) k
    obtain ⟨i, hi, -⟩ := Option.map_eq_some_iff.1 hr
    exact ⟨i, r, fun G _ => ⟨(t.findSlot_eq G .scalar hash k).trans hi,
      (t.find_eq G .scalar hash k).trans hr⟩⟩
  · obtain ⟨t', b, hr, -⟩ := hR.inv.insertOrAssign_spec (G := .scalar) k v
    exact ⟨(t', b), fun G _ => (t.insertOrAssign_eq G .scalar hash k v).trans hr⟩
  · obtain ⟨t', b, hr, -⟩ := hR.inv.erase_spec (G := .scalar) k
    exact ⟨(t', b), fun G _ => (t.erase_eq G .scalar hash k).trans hr⟩

/-- Four bits a lane: a match in lanes 3 and 14 is seen four times in each. -/
example : GroupOps.neon.lanes
    (GroupOps.neon.matchBits (fun l => if l = 3 ∨ l = 14 then 5 else kEmpty) 5) =
    [3, 3, 3, 3, 14, 14, 14, 14] := by decide +kernel

end SwissTable

end BlazeKV
