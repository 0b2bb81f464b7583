import BlazeKV.Lib.Dense
import BlazeKV.Lib.Machine
import BlazeKV.Spec.Reactor

/-! The poll reactor keeps one entry for each registered descriptor, and what it reports bears the
token of the descriptor that is ready. -/

namespace BlazeKV.PollReactor

open Lib

variable {τ : Type} [Inhabited τ]

inductive Call (τ : Type) where
  | add (fd : ℤ) (flags : ℕ) (token : τ)
  | mod (fd : ℤ) (flags : ℕ) (token : τ)
  | del (fd : ℤ)
  | wait (polled : Polled) (max : ℤ)

/-- A call, with the result of those that return a truth value. -/
def exec (r : PollReactor τ) : Call τ → PollReactor τ × Option Bool
  | .add fd flags token => ((r.add fd flags token).1, some (r.add fd flags token).2)
  | .mod fd flags token => ((r.mod fd flags token).1, some (r.mod fd flags token).2)
  | .del fd => ((r.del fd).1, some (r.del fd).2)
  | .wait polled max => ((r.wait polled max).1, none)

/-- The flags and the token last given for each registered descriptor. -/
abbrev Interests (τ : Type) := ℤ → Option (ℕ × τ)

def register (m : Interests τ) : Call τ → Interests τ × Option Bool
  | .add fd flags token => (Function.update m fd (some (flags, token)), some true)
  | .mod fd flags token => (Function.update m fd (some (flags, token)), some true)
  | .del fd => (Function.update m fd none, some (m fd).isSome)
  | .wait _ _ => (m, none)

/-- `add` is for a descriptor that is not registered. -/
def Fresh (m : Interests τ) : Call τ → Prop
  | .add fd _ _ => (m fd).isNone
  | _ => True

instance (m : Interests τ) : DecidablePred (Fresh m)
  | .add fd _ _ => inferInstanceAs (Decidable ((m fd).isNone = true))
  | .mod _ _ _ => inferInstanceAs (Decidable True)
  | .del _ => inferInstanceAs (Decidable True)
  | .wait _ _ => inferInstanceAs (Decidable True)

/-- The arrays are parallel, the map leads exactly the registered descriptors to their positions,
and the entry there is what was last given. -/
structure Represents (r : PollReactor τ) (m : Interests τ) : Prop where
  lengths : r.fds.length = r.tokens.length
  index : Indexed PollFd.fd r.index r.fds
  registered : ∀ fd, m fd = none ↔ r.index fd = none
  kept : ∀ (i : ℕ) (p : PollFd) (token : τ), r.fds[i]? = some p → r.tokens[i]? = some token →
    ∃ flags, m p.fd = some (flags, token) ∧ p.events = toEvents flags

variable {r : PollReactor τ} {m : Interests τ}

omit [Inhabited τ] in
theorem represents_empty : Represents (empty : PollReactor τ) fun _ => none where
  lengths := rfl
  index fd i := by simp [empty]
  registered fd := by simp [empty]
  kept i p token h := by simp [empty] at h

section Steps

variable {fd : ℤ} {flags : ℕ} {token : τ}

omit [Inhabited τ] in
theorem Represents.add (h : Represents r m) (flags : ℕ) (token : τ) (hnew : m fd = none) :
    Represents (r.add fd flags token).1 (Function.update m fd (some (flags, token))) := by
  have hnone := (h.registered fd).1 hnew
  constructor
  · simp [PollReactor.add, h.lengths]
  · exact h.index.push (x := ⟨fd, toEvents flags, 0⟩) hnone
  · intro fd'
    simp only [PollReactor.add, Function.update_apply]
    split_ifs
    · simp
    · exact h.registered fd'
  · intro i p t hp ht
    rcases getElem?_snoc.1 hp with hp | ⟨hi, rfl⟩
    · have hlt := h.lengths ▸ (List.getElem?_eq_some_iff.1 hp).1
      have ht' : r.tokens[i]? = some t := by
        refine (getElem?_snoc.1 ht).resolve_right fun hlast => ?_
        omega
      have hne : p.fd ≠ fd := by
        intro he
        rw [← he, h.index.of_at hp] at hnone
        cases hnone
      rw [Function.update_of_ne hne]
      exact h.kept i p t hp ht'
    · rcases getElem?_snoc.1 ht with ht | ⟨-, rfl⟩
      · have := (List.getElem?_eq_some_iff.1 ht).1
        rw [← h.lengths] at this
        omega
      · exact ⟨flags, Function.update_self .., rfl⟩

omit [Inhabited τ] in
theorem Represents.mod (h : Represents r m) (fd : ℤ) (flags : ℕ) (token : τ) :
    Represents (r.mod fd flags token).1 (Function.update m fd (some (flags, token))) := by
  unfold PollReactor.mod
  cases hk : r.index fd with
  | none => exact h.add flags token ((h.registered fd).2 hk)
  | some i =>
    have hi := h.index.lt hk
    have hfd : (r.fds.getD i default).fd = fd := h.index.key_at hk (getElem?_getD hi default)
    constructor
    · simp [h.lengths]
    · exact h.index.set (x := { r.fds.getD i default with events := toEvents flags }) (hfd ▸ hk)
    · intro fd'
      simp only [Function.update_apply]
      split_ifs with he
      · simp [he, hk]
      · exact h.registered fd'
    · intro j p t hp ht
      dsimp only at hp ht
      rw [List.getElem?_set] at hp ht
      by_cases hij : i = j
      · simp only [hij, ← h.lengths, if_true, hij ▸ hi, Option.some.injEq] at hp ht
        subst hp ht
        rw [show (r.fds.getD j default).fd = fd from hij ▸ hfd]
        exact ⟨flags, Function.update_self .., rfl⟩
      · rw [if_neg hij] at hp ht
        have hne : p.fd ≠ fd := by
          rintro rfl
          exact hij (h.index.unique (getElem?_getD hi default) hp hfd)
        rw [Function.update_of_ne hne]
        exact h.kept j p t hp ht

omit [Inhabited τ] in
/-- The last descriptor leaves. -/
theorem Represents.pop (h : Represents r m) (hk : r.index fd = some (r.fds.length - 1)) :
    Represents ⟨r.fds.dropLast, r.tokens.dropLast, Function.update r.index fd none⟩
    (Function.update m fd none) := by
  have hlast := h.index.lt hk
  constructor
  · simp [h.lengths]
  · exact h.index.pop hk
  · intro fd'
    simp only [Function.update_apply]
    split_ifs
    · simp
    · exact h.registered fd'
  · intro j p t hleft hright
    obtain ⟨hj, hp⟩ := getElem?_dropLast'.1 hleft
    obtain ⟨-, ht⟩ := getElem?_dropLast'.1 hright
    have hne : p.fd ≠ fd := by
      rintro rfl
      rw [h.index.of_at hp, Option.some.injEq] at hk
      omega
    rw [Function.update_of_ne hne]
    exact h.kept j p t hp ht

/-- The last descriptor moves into the gap, with its token. -/
theorem Represents.swap_remove {i : ℕ} (h : Represents r m) (hk : r.index fd = some i)
    (hne : i ≠ r.fds.length - 1) :
    let p := r.fds.getD (r.fds.length - 1) default
    Represents ⟨(r.fds.set i p).dropLast,
      (r.tokens.set i (r.tokens.getD (r.fds.length - 1) default)).dropLast,
      Function.update (Function.update r.index p.fd (some i)) fd none⟩ (Function.update m fd none) := by
  intro last
  have hi := h.index.lt hk
  have hlast : r.fds[r.fds.length - 1]? = some last := getElem?_getD (by omega) default
  have hfd : last.fd ≠ fd := by
    intro he
    have := h.index.of_at hlast
    rw [he, hk, Option.some.injEq] at this
    exact hne this
  constructor
  · simp [h.lengths]
  · exact h.index.swap_remove hk hne hlast
  · intro fd'
    simp only [Function.update_apply]
    split_ifs with he he'
    · simp
    · simp [he', h.registered, h.index.of_at hlast]
    · exact h.registered fd'
  · intro j p t hleft hright
    obtain ⟨hj, hp⟩ := (getElem?_swap_remove hi).1 hleft
    obtain ⟨-, ht⟩ := (getElem?_swap_remove (h.lengths ▸ hi)).1 hright
    by_cases hji : j = i
    · rw [if_pos hji] at hp ht
      subst hp ht
      rw [Function.update_of_ne hfd]
      exact h.kept _ last _ hlast (getElem?_getD (by rw [← h.lengths]; omega) default)
    · rw [if_neg hji] at hp ht
      have hpfd : p.fd ≠ fd := by
        rintro rfl
        rw [h.index.of_at hp, Option.some.injEq] at hk
        exact hji hk
      rw [Function.update_of_ne hpfd]
      exact h.kept j p t hp ht

theorem Represents.del (h : Represents r m) (fd : ℤ) :
    Represents (r.del fd).1 (Function.update m fd none) := by
  unfold PollReactor.del
  cases hk : r.index fd with
  | none =>
    have hm : Function.update m fd none = m :=
      Function.update_eq_self_iff.2 ((h.registered fd).2 hk).symm
    rwa [hm]
  | some i =>
    dsimp only
    by_cases hlast : i = r.fds.length - 1
    · rw [if_neg (not_not.2 hlast)]
      exact h.pop (hlast ▸ hk)
    · rw [if_pos hlast]
      exact h.swap_remove hk hlast

theorem del_returns (h : Represents r m) (fd : ℤ) : (r.del fd).2 = (m fd).isSome := by
  unfold PollReactor.del
  cases hk : r.index fd with
  | none => rw [(h.registered fd).2 hk, Option.isSome_none]
  | some i =>
    have hm : m fd ≠ none := fun hm => by simp [(h.registered fd).1 hm] at hk
    exact (Option.isSome_iff_ne_none.2 hm).symm

omit [Inhabited τ] in
theorem mod_returns (r : PollReactor τ) (fd : ℤ) (flags : ℕ) (token : τ) :
    (r.mod fd flags token).2 = true := by
  unfold PollReactor.mod
  split <;> rfl

end Steps

section Wait

/-- The state after `poll`: only what the kernel writes is new. -/
def polledBy (r : PollReactor τ) (polled : Polled) : PollReactor τ :=
  { r with fds := r.fds.mapIdx fun i p => { p with revents := polled.revents.getD i 0 } }

omit [Inhabited τ] in
theorem polledBy_at {polled : Polled} {i : ℕ} {p : PollFd} : (r.polledBy polled).fds[i]? = some p ↔
    ∃ q, r.fds[i]? = some q ∧ p = { q with revents := polled.revents.getD i 0 } := by
  rw [polledBy, List.getElem?_mapIdx, Option.map_eq_some_iff]
  exact exists_congr fun q => and_congr_right fun _ => eq_comm

omit [Inhabited τ] in
theorem Represents.polledBy (h : Represents r m) (polled : Polled) :
    Represents (r.polledBy polled) m := by
  constructor
  · simp [PollReactor.polledBy, h.lengths]
  · intro fd i
    refine (h.index fd i).trans ?_
    simp only [polledBy_at]
    constructor
    · rintro ⟨q, hq, hfd⟩
      exact ⟨_, ⟨q, hq, rfl⟩, hfd⟩
    · rintro ⟨p, ⟨q, hq, rfl⟩, hfd⟩
      exact ⟨q, hq, hfd⟩
  · exact h.registered
  · intro i p t hp ht
    obtain ⟨q, hq, rfl⟩ := polledBy_at.1 hp
    exact h.kept i q t hq ht

theorem wait_state (r : PollReactor τ) (polled : Polled) (max : ℤ) :
    (r.wait polled max).1 = r ∨ (r.wait polled max).1 = r.polledBy polled := by
  by_cases hnil : r.fds = []
  · rw [wait, if_pos hnil]
    exact .inl rfl
  · rw [wait, if_neg hnil]
    dsimp only
    split <;> exact .inr rfl

theorem Represents.wait (h : Represents r m) (polled : Polled) (max : ℤ) :
    Represents (r.wait polled max).1 m := by
  rcases wait_state r polled max with he | he
  · rw [he]
    exact h
  · rw [he]
    exact h.polledBy polled

/-- What the loop reports stands at one position of both arrays. -/
theorem mem_report {max : ℤ} {rounds i produced : ℕ} {e : ReadyEvent τ}
    (h : e ∈ r.report max rounds i produced) :
    ∃ j < i + rounds, e = ⟨(r.fds.getD j default).fd, r.tokens.getD j default,
      readiness (r.fds.getD j default).revents⟩ := by
  induction rounds generalizing i produced with
  | zero => cases h
  | succ rounds ih =>
    unfold report at h
    dsimp only at h
    split_ifs at h
    · obtain ⟨j, hj, he⟩ := ih h
      exact ⟨j, by omega, he⟩
    · rcases List.mem_cons.1 h with rfl | h
      · exact ⟨i, by omega, rfl⟩
      · obtain ⟨j, hj, he⟩ := ih h
        exact ⟨j, by omega, he⟩
    · cases h

/-- An event is about a registered descriptor: its token, and what the kernel says of it. -/
theorem Represents.event (h : Represents r m) {polled : Polled} {max : ℤ} {e : ReadyEvent τ}
    (he : e ∈ (r.wait polled max).2.2) :
    ∃ i flags, r.index e.fd = some i ∧ m e.fd = some (flags, e.token) ∧
      e.flags = readiness (polled.revents.getD i 0) := by
  have hin : e ∈ (r.polledBy polled).report max (r.polledBy polled).fds.length 0 0 := by
    by_cases hnil : r.fds = []
    · rw [PollReactor.wait, if_pos hnil] at he
      cases he
    · rw [PollReactor.wait, if_neg hnil] at he
      dsimp only at he
      split at he
      · cases he
      · exact he
  obtain ⟨i, hi, rfl⟩ := mem_report hin
  rw [Nat.zero_add] at hi
  have hp := getElem?_getD hi default
  have ht := getElem?_getD ((h.polledBy polled).lengths ▸ hi) (default : τ)
  obtain ⟨flags, hm, -⟩ := (h.polledBy polled).kept i _ _ hp ht
  obtain ⟨q, hq, hpq⟩ := polledBy_at.1 hp
  refine ⟨i, flags, (h.polledBy polled).index.of_at hp, hm, ?_⟩
  dsimp only
  rw [hpq]

end Wait

theorem exec_refines : StepRefines Represents (fun r c => some (exec r c)) (register (τ := τ)) Fresh := by
  intro r m c h hc
  cases c with
  | add fd flags token =>
    exact ⟨_, rfl, h.add flags token (Option.isNone_iff_eq_none.1 hc)⟩
  | mod fd flags token =>
    exact ⟨_, congrArg some (Prod.ext rfl (congrArg some (mod_returns r fd flags token))),
      h.mod fd flags token⟩
  | del fd =>
    exact ⟨_, congrArg some (Prod.ext rfl (congrArg some (del_returns h fd))), h.del fd⟩
  | wait polled max => exact ⟨_, rfl, h.wait polled max⟩

/-- Any sequence of calls leaves arrays and map that agree with what was last given for each
descriptor, and each event that is then reported bears the token of its descriptor. -/
theorem reactor_consistent (calls : List (Call τ))
    (hfresh : RunOk register Fresh (fun _ => none) calls) :
    ∃ r, run (fun r c => some (exec r c)) empty calls =
    some (r, (runTotal register (fun _ => none) calls).2) ∧
      Represents r (runTotal register (fun _ => none) calls).1 ∧
      ∀ polled max, ∀ e ∈ (r.wait polled max).2.2, ∃ i flags, r.index e.fd = some i ∧
        (runTotal register (fun _ => none) calls).1 e.fd = some (flags, e.token) ∧
        e.flags = readiness (polled.revents.getD i 0) := by
  obtain ⟨r, hrun, h⟩ := run_refines exec_refines calls represents_empty hfresh
  exact ⟨r, hrun, h, fun polled max e he => h.event he⟩

/-- Descriptor 7 is closed and its number used again. -/
theorem reactor_consistent_reused : ∃ r : PollReactor ℕ, run (fun r c => some (exec r c)) empty
      [.add 7 1 70, .add 8 3 80, .add 9 1 90, .del 7, .wait ⟨1, false, [1, 0]⟩ 4, .del 8, .add 7 3 71] =
        some (r, [some true, some true, some true, some true, none, some true, some true]) ∧
      ∀ polled max, ∀ e ∈ (r.wait polled max).2.2, e.fd = 7 → e.token = 71 := by
  obtain ⟨r, hrun, -, hevents⟩ := reactor_consistent (τ := ℕ)
    [.add 7 1 70, .add 8 3 80, .add 9 1 90, .del 7, .wait ⟨1, false, [1, 0]⟩ 4, .del 8, .add 7 3 71]
    (by decide)
  refine ⟨r, hrun, fun polled max e he h7 => ?_⟩
  obtain ⟨i, flags, -, hm, -⟩ := hevents polled max e he
  rw [h7] at hm
  exact (congrArg Prod.snd (Option.some.inj hm)).symm

end BlazeKV.PollReactor
