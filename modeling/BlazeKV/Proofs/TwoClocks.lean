import BlazeKV.Proofs.InOrder
import BlazeKV.Proofs.Representation

/-! A command at one clock reading and at a later one. What it leaves looks the same at
the later one, unless it counts a deadline from the clock, or the deadline of its key
passes in between. -/

namespace BlazeKV

open Keyspace

namespace Keyspace

variable {db : Keyspace} {now later : ℕ} {key : Bytes}

/-- The deadline of a live key passes until `later`. -/
def fades (db : Keyspace) (now later : ℕ) (key : Bytes) : Bool := (db.peek now key).isSome && db.dead later key

theorem live_later (hle : now ≤ later) (k : Bytes) :
    db.live later k = if db.dead later k then none else db.live now k := by
  split_ifs with hd
  · exact live_of_dead hd
  · have hd' : db.dead now k = false := by
      by_contra hn
      exact hd (dead_mono hle (by simpa using hn))
    simp [live, peek, hd, hd']

/-- What looks the same looks the same later. -/
theorem LiveEquiv.at_later {db' : Keyspace} (hle : now ≤ later) (h : LiveEquiv now db db') : LiveEquiv later db db' := by
  intro k
  have hk := h k
  rw [live_later hle, live_later hle]
  cases h1 : db.live now k with
  | none =>
    cases h2 : db'.live now k with
    | none =>
      rw [ite_self, ite_self]
    | some e' =>
      rw [h1, h2] at hk
      exact False.elim hk
  | some e =>
    cases h2 : db'.live now k with
    | none =>
      rw [h1, h2] at hk
      exact False.elim hk
    | some e' =>
      rw [h1, h2] at hk
      have hdead : db'.dead later k = db.dead later k := by
        rw [dead, dead, live_deadline h1, live_deadline h2, hk.2]
      rw [hdead]
      split_ifs
      · trivial
      · exact hk

/-- A key whose deadline does not pass in between is found as before. -/
theorem lookup_later (hle : now ≤ later) (h : db.fades now later key = false) : db.lookup later key = db.lookup now key := by
  cases hf : db.dict.find key with
  | none => simp [lookup_eq, peek, hf]
  | some o =>
    have hdead : db.dead later key = db.dead now key := by
      cases hd : db.dead now key with
      | true => exact dead_mono hle hd
      | false => simpa [fades, peek, hd, hf] using h
    rw [lookup_eq, lookup_eq, peek, peek, hdead]

theorem fades_lookup (h : db.fades now later key = false) : (db.lookup now key).1.fades now later key = false := by
  cases hp : db.peek now key with
  | none => simp [fades, Cmd.peek_lookup_none hp]
  | some o => rwa [lookup_of_peek _ _ _ _ hp]

end Keyspace

namespace Cmd

variable {env : Env} {db : Keyspace} {later : ℕ} (argv : List Bytes)

/-! Runs at two clock readings. -/

theorem append_later (hlook : db.lookup later (arg argv 1) = db.lookup env.now (arg argv 1)) :
    append { env with now := later } argv db = append env argv db := by
  simp only [append, getString, getAs, hlook]

theorem incrby_later (hlook : db.lookup later (arg argv 1) = db.lookup env.now (arg argv 1)) :
    incrby { env with now := later } argv db = incrby env argv db := by
  simp only [incrby, incrBy, getString, getAs, hlook]

theorem get_later (hlook : db.lookup later (arg argv 1) = db.lookup env.now (arg argv 1)) :
    get { env with now := later } argv db = get env argv db := by
  simp only [get, getString, getAs, hlook]

theorem persist_later (hlook : db.lookup later (arg argv 1) = db.lookup env.now (arg argv 1)) :
    persist { env with now := later } argv db = persist env argv db := by
  simp only [persist, existsKey, hlook]
  rfl

theorem expireat_later (hlook : db.lookup later (arg argv 1) = db.lookup env.now (arg argv 1)) :
    expireat { env with now := later } argv db = expireat env argv db := by
  simp only [expireat, expireBy, setExpire, existsKey, hlook]
  rfl

theorem set_later (hlook : db.lookup later (arg argv 1) = db.lookup env.now (arg argv 1))
    (hagain : (db.lookup env.now (arg argv 1)).1.lookup later (arg argv 1) =
      (db.lookup env.now (arg argv 1)).1.lookup env.now (arg argv 1))
    (hargs : setArgs { env with now := later } argv = setArgs env argv) :
    set { env with now := later } argv db = set env argv db := by
  unfold setArgs at hargs
  simp only [set, hargs, hlook, hagain]

/-- A deadline that has passed at once. -/
theorem expireBy_passed {deadline : ℕ → ℕ → ℕ} {n : ℤ} (hn : parseInt (arg argv 2) = some n) (h0 : n ≤ 0)
    (hdl : deadline env.now 0 ≤ env.now) (hle : env.now ≤ later) (k : Bytes) :
    (expireBy deadline env argv db).db.live later k = if k = arg argv 1 then none else db.live later k := by
  have hzero : (max 0 n).toNat = 0 := by rw [max_eq_left h0, Int.toNat_zero]
  simp only [expireBy, setExpire, existsKey, lookup_snd, hn, hzero]
  cases hp : db.peek env.now (arg argv 1) with
  | none =>
    show (db.lookup env.now (arg argv 1)).1.live later k = _
    rw [live_lookup_later _ _ _ _ hle]
    split_ifs with hk
    · rw [hk, live_later hle, live, hp, Option.map_none, ite_self]
    · rfl
  | some o =>
    show ((db.lookup env.now (arg argv 1)).1.setDeadline (arg argv 1) (deadline env.now 0)).live later k = _
    rw [lookup_of_peek _ _ _ _ hp]
    split_ifs with hk
    · refine live_of_dead ?_
      simpa [hk, dead] using hdl.trans hle
    · exact live_congr (by simp) (by simp [hk]) later

/-- `SET` without `XX`. -/
theorem set_plain {o : SetOpts} (ho : setArgs env argv = .ok o) (hx : o.xx = false)
    (hnx : ¬(o.nx ∧ ((db.peek env.now (arg argv 1)).bind Object.string?).isSome)) :
    (set env argv db).db = setWrite o (db.lookup env.now (arg argv 1)).1 (arg argv 1) (arg argv 2) := by
  unfold setArgs at ho
  simp only [set, ho, lookup_snd, hx, if_neg hnx, Bool.false_eq_true, if_false, false_and]
  rfl

/-- What `NX` refuses is not marked dirty. -/
theorem set_refused {o : SetOpts} (ho : setArgs env argv = .ok o) (hd : (set env argv db).dirty = true) :
    ¬(o.nx ∧ ((db.peek env.now (arg argv 1)).bind Object.string?).isSome) := by
  intro hnx
  unfold setArgs at ho
  simp only [set, ho, lookup_snd, if_pos hnx] at hd
  cases hd

/-- `SET` on a key whose deadline passes in between. -/
theorem set_fading (hle : env.now ≤ later) (hf : db.fades env.now later (arg argv 1)) {o : SetOpts}
    (ho : setArgs env argv = .ok o) (ho' : setArgs { env with now := later } argv = .ok o) (hx : o.xx = false)
    (hk : o.keepttl → o.deadline ≠ 0) (hd : (set env argv db).dirty = true) :
    LiveEquiv later (set env argv db).db (set { env with now := later } argv db).db := by
  have hnone : db.peek later (arg argv 1) = none := by
    have hdead : db.dead later (arg argv 1) := (Bool.and_eq_true_iff.1 hf).2
    rw [peek, if_pos hdead]
  rw [set_plain argv ho hx (set_refused argv ho hd), set_plain argv ho' hx (by simp [hnone])]
  have hlike : Like False ({ env with now := later } : Env).now (db.lookup env.now (arg argv 1)).1
      (db.lookup later (arg argv 1)).1 := by
    refine ⟨fun k => ?_, False.elim⟩
    show sameEntry (Keyspace.live _ later k) (Keyspace.live _ later k)
    rw [live_lookup_later _ _ _ _ hle, live_lookup]
  exact (setWrite_like o hlike (fun h1 h2 => absurd h2 (hk h1)) _).live

end Cmd

/-- The commands of strings and their deadlines. -/
def timed : List Bytes :=
  [ascii "set", ascii "setex", ascii "psetex", ascii "expire", ascii "pexpire", ascii "expireat", ascii "persist",
   ascii "incrby", ascii "append", ascii "get", ascii "del"]

/-- How the runs at two clock readings compare. -/
inductive ClockDeed (spec : CommandSpec) : Prop
  | set (hn : spec.name = ascii "set") (h : spec.fn = Cmd.set)
  | setex (hn : spec.name ∈ [ascii "setex", ascii "psetex"]) (h : spec.fn = Cmd.setex)
  | expire (hn : spec.name ∈ [ascii "expire", ascii "pexpire"]) (deadline : ℕ → ℕ → ℕ)
      (h : spec.fn = Cmd.expireBy deadline) (hdl : ∀ now, deadline now 0 ≤ now)
  | steady (hn : spec.name ∉ [ascii "set", ascii "del", ascii "expire", ascii "pexpire"])
      (h : ∀ (env : Env) argv db later, db.lookup later (arg argv 1) = db.lookup env.now (arg argv 1) →
        spec.fn { env with now := later } argv db = spec.fn env argv db)
      (ho : ∀ env argv db, Owned db → Owned (spec.fn env argv db).db)
  | del (h : spec.fn = Cmd.del)

theorem clockDeeds {argv : List Bytes} {spec : CommandSpec} (hr : route argv = .ok spec) (hn : spec.name ∈ timed) :
    ClockDeed spec := by
  have hu64 : ∀ n, u64 n ≤ n := fun n => Nat.mod_le n _
  have hsecs : ∀ now, u64 (now + u64 (0 * 1000)) ≤ now := fun now => hu64 (now + 0)
  simp only [timed, List.mem_cons, List.not_mem_nil, or_false] at hn
  rcases hn with hn | hn | hn | hn | hn | hn | hn | hn | hn | hn | hn <;> rw [route_spec hr hn rfl]
  · exact .set rfl rfl
  · exact .setex (by simp) rfl
  · exact .setex (by simp) rfl
  · exact .expire (by simp) (fun now secs => u64 (now + u64 (secs * 1000))) rfl hsecs
  · exact .expire (by simp) (fun now ms => u64 (now + ms)) rfl fun now => hu64 (now + 0)
  · exact .steady (by decide) (fun _ argv _ _ => Cmd.expireat_later argv) fun _ argv _ h => (Cmd.expireBy_ordered argv h.inOrder _).owned
  · exact .steady (by decide) (fun _ argv _ _ => Cmd.persist_later argv) fun _ argv _ h => (Cmd.persist_ordered argv h.inOrder).owned
  · exact .steady (by decide) (fun _ argv _ _ => Cmd.incrby_later argv) fun _ argv _ h =>
      (Cmd.incrby_ordered argv (fun _ => trivial) h.inOrder).owned
  · exact .steady (by decide) (fun _ argv _ _ => Cmd.append_later argv) fun _ argv _ h =>
      (Cmd.append_ordered argv (fun _ => trivial) h.inOrder).owned
  · exact .steady (by decide) (fun _ argv _ _ => Cmd.get_later argv) fun _ argv _ h => (Cmd.get_ordered argv h.inOrder).owned
  · exact .del rfl

section Later

variable {argv : List Bytes} {spec : CommandSpec} {env : Env} {db : Keyspace} {later : ℕ}

/-- A command that does as much later: it counts no deadline from the clock that is still to
come, and it does not depend on a key whose deadline passes in between. -/
def Lasting (later : ℕ) (env : Env) (argv : List Bytes) (db : Keyspace) : Prop :=
  let name := lowercase (cmdName argv)
  name ∉ [ascii "setex", ascii "psetex"] ∧
    (name ∈ [ascii "expire", ascii "pexpire"] → ∀ n, parseInt (arg argv 2) = some n → n ≤ 0) ∧
    (name = ascii "set" → Cmd.setArgs { env with now := later } argv = Cmd.setArgs env argv) ∧
    (db.fades env.now later (arg argv 1) → name ∈ [ascii "del", ascii "expire", ascii "pexpire"] ∨
      name = ascii "set" ∧ ∀ o, Cmd.setArgs env argv = .ok o → o.xx = false ∧ (o.keepttl → o.deadline ≠ 0))

theorem owned_kept (hr : route argv = .ok spec) (hn : spec.name ∈ timed) (h : Owned db) :
    Owned (spec.fn env argv db).db := by
  cases clockDeeds hr hn with
  | set _ hf => exact hf ▸ (Cmd.set_ordered argv (fun _ => trivial) h.inOrder).owned
  | setex _ hf => exact hf ▸ (Cmd.setex_ordered argv (fun _ => trivial) h.inOrder).owned
  | expire _ deadline hf _ => exact hf ▸ (Cmd.expireBy_ordered argv h.inOrder deadline).owned
  | steady _ _ ho => exact ho env argv db h
  | del hf => exact hf ▸ (Cmd.del_ordered argv h.inOrder).owned

/-- One keyspace, two clock readings. -/
theorem lasts (hr : route argv = .ok spec) (hn : spec.name ∈ timed) (hle : env.now ≤ later)
    (hd : (spec.fn env argv db).dirty = true) (hl : Lasting later env argv db) :
    LiveEquiv later (spec.fn env argv db).db (spec.fn { env with now := later } argv db).db := by
  have hname : spec.name = lowercase (cmdName argv) := (find_mem (route_ok hr).1).2
  unfold Lasting at hl
  rw [← hname] at hl
  obtain ⟨hsetex, hexp, hset, hfade⟩ := hl
  cases clockDeeds hr hn with
  | setex hn' _ => exact absurd hn' hsetex
  | del hf =>
    rw [hf]
    exact .refl _
  | expire hn' deadline hf hdl =>
    rw [hf] at hd ⊢
    cases hp : parseInt (arg argv 2) with
    | none => simp [Cmd.expireBy, hp, Result.clean] at hd
    | some n =>
      intro k
      rw [Cmd.expireBy_passed argv hp (hexp hn' n hp) (hdl _) hle k,
        Cmd.expireBy_passed argv hp (hexp hn' n hp) (hdl _) le_rfl k]
  | steady hn' h _ =>
    have hno : db.fades env.now later (arg argv 1) = false := by
      by_contra hf
      rcases hfade (Bool.eq_true_of_not_eq_false hf) with h | h <;> simp_all
    rw [h env argv db later (lookup_later hle hno)]
  | set hn' hf =>
    rw [hf] at hd ⊢
    cases hfd : db.fades env.now later (arg argv 1) with
    | false =>
      rw [Cmd.set_later argv (lookup_later hle hfd) (lookup_later hle (fades_lookup hfd)) (hset hn')]
    | true =>
      obtain ⟨-, hopts⟩ := (hfade hfd).resolve_left (by rw [hn']; decide)
      cases ho : Cmd.setArgs env argv with
      | error e =>
        unfold Cmd.setArgs at ho
        simp [Cmd.set, ho, Result.clean] at hd
      | ok o =>
        obtain ⟨hx, hk⟩ := hopts o ho
        exact Cmd.set_fading argv hle hfd ho ((hset hn').trans ho) hx hk hd

/-- Two keyspaces that look the same, one clock reading. -/
theorem live_kept {env' : Env} {db' : Keyspace} (hr : route argv = .ok spec) (hn : spec.name ∈ timed) (hw : spec.write)
    (hnow : env'.now = env.now) (h : LiveEquiv env.now db db') (ho : Owned db) (ho' : Owned db') :
    LiveEquiv env.now (spec.fn env argv db).db (spec.fn env' argv db').db := by
  have hlike : Like False env.now db db' := ⟨h, False.elim⟩
  cases twinDeeds spec (mem_writers (find_mem (route_ok hr).1).1 hw) with
  | alike _ ha => exact (ha False env env' argv db db' hnow hlike).db.live
  | vector _ hv =>
    obtain ⟨d, hd⟩ := hv env argv db
    obtain ⟨d', hd'⟩ := hv env' argv db'
    rw [hd, hd']
    exact h
  | del _ hf =>
    rw [hf]
    exact (Cmd.del_like argv hlike).live
  | set _ hf =>
    rw [hf]
    refine (Cmd.set_alike argv hnow hlike fun opts _ _ _ _ hp => ?_).db.live
    have hp' : db'.peek env.now (arg argv 1) = none := by
      have := (hlike.peek (arg argv 1)).isSome
      rwa [hp, Option.isSome_none, Option.isSome_eq_false_iff, Option.isNone_iff_eq_none] at this
    rw [ho.keptDeadline hp, ho'.keptDeadline hp']
  | spop hs _ => exact absurd hn (by rw [hs]; decide)

end Later

end BlazeKV
