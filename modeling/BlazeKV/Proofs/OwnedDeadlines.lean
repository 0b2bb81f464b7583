import BlazeKV.Proofs.ExpireCycle
import BlazeKV.Proofs.InOrder
import BlazeKV.Spec.Recovery

/-! No deadline outlives its key, whatever a shard does. -/

namespace BlazeKV

open Keyspace

namespace Snapshot

variable {now : ℕ} {levels : Bytes → Levels} {db : Keyspace}

/-- A load that succeeds leaves what it says. -/
theorem load_eq_into (data : Bytes) : load now levels data db =
    if (loadInto (fun _ => now) levels data db).2 then some (loadInto (fun _ => now) levels data db).1 else none := by
  have hmany : ∀ n d s, (getMany (readObject now levels) n d s).map Prod.fst =
      if (loadObjects (fun _ => now) levels n d s).2 then some (loadObjects (fun _ => now) levels n d s).1 else none := by
    intro n
    induction n with
    | zero => exact fun d s => rfl
    | succ n ih =>
      intro d s
      unfold getMany loadObjects
      cases readObject now levels d s with
      | none => rfl
      | some r => exact ih r.1 r.2
  unfold load loadInto
  cases getBytes 8 data with
  | none => rfl
  | some magic =>
    by_cases hm : magic.1 ≠ kMagic
    · simp [hm]
    · cases hc : getNat 8 magic.2 with
      | none => simp [hm, hc]
      | some count =>
        simp only [Option.bind_some, if_neg hm, hc]
        exact hmany count.1 db count.2

/-- A load leaves things in order where every value that can be read is. -/
theorem loadInto_ordered {P : Object → Prop} (hP : ∀ levels type s r, readValue levels type s = some r → P r.1)
    (clock : ℕ → ℕ) (data : Bytes) (h : InOrder P db) : InOrder P (loadInto clock levels data db).1 := by
  have hrestore : ∀ now d key dl obj, P obj → InOrder P d → InOrder P (restore now d key dl obj) := by
    intro now d key dl obj ho hd
    unfold restore
    split_ifs
    · exact hd
    · exact (hd.set ho).setDeadline (by simp) dl
    · exact hd.set ho
  have hobjects : ∀ n d s, InOrder P d → InOrder P (loadObjects clock levels n d s).1 := by
    intro n
    induction n with
    | zero => exact fun d s hd => hd
    | succ n ih =>
      intro d s hd
      unfold loadObjects
      cases hr : readObject (clock n) levels d s with
      | none => exact hd
      | some r =>
        obtain ⟨type, -, hr⟩ := Option.bind_eq_some_iff.1 hr
        obtain ⟨key, -, hr⟩ := Option.bind_eq_some_iff.1 hr
        obtain ⟨deadline, -, hr⟩ := Option.bind_eq_some_iff.1 hr
        obtain ⟨obj, hobj, rfl⟩ := Option.map_eq_some_iff.1 hr
        exact ih _ _ (hrestore _ _ _ _ _ (hP _ _ _ _ hobj) hd)
  unfold loadInto
  split
  · exact h
  · split_ifs
    · exact h
    · split
      · exact h
      · exact hobjects _ _ _ h

theorem loadInto_owned (clock : ℕ → ℕ) (data : Bytes) (h : Owned db) : Owned (loadInto clock levels data db).1 :=
  (loadInto_ordered (P := fun _ => True) (fun _ _ _ _ _ => trivial) clock data h.inOrder).owned

end Snapshot

/-- A command on two keyspaces that show the same objects, each with deadlines of its values only,
leaves what looks the same. -/
theorem execCore_live {env : Env} {argv : List Bytes} {db db' : Keyspace}
    (hlive : ∀ k, db'.live env.now k = db.live env.now k) (ho : Owned db) (ho' : Owned db') :
    LiveEquiv env.now (execCore env argv db).db (execCore env argv db').db := by
  have hlike : Like False env.now db db' := ⟨fun k => by rw [hlive], False.elim⟩
  have hpeek : ∀ k, db'.peek env.now k = db.peek env.now k := fun k => peek_of_live_eq (hlive k)
  unfold execCore
  cases hr : route argv with
  | error e => exact hlike.live
  | ok spec =>
    have hmem := find_mem (route_ok hr).1
    cases hw : spec.write with
    | true =>
      cases twinDeeds spec (mem_writers hmem.1 hw) with
      | alike _ ha => exact (ha False env env argv db db' rfl hlike).db.live
      | vector _ hv =>
        obtain ⟨d, hd⟩ := hv env argv db
        obtain ⟨d', hd'⟩ := hv env argv db'
        simp only [hd, hd']
        exact hlike.live
      | del _ hf =>
        simp only [hf]
        exact (Cmd.del_like argv hlike).live
      | set _ hf =>
        simp only [hf]
        refine (Cmd.set_alike argv rfl hlike fun opts _ _ _ _ hp => ?_).db.live
        rw [ho.keptDeadline hp, ho'.keptDeadline ((hpeek _).trans hp)]
      | spop _ hf =>
        simp only [hf]
        exact (spop_alike argv hlike (hpeek _)).db.live
    | false =>
      have har := (route_ok hr).2
      cases deeds spec hmem.1 with
      | reads _ _ h =>
        exact (h env argv db har).looked.liveEquiv.symm.trans (hlike.live.trans (h env argv db' har).looked.liveEquiv)
      | flush _ _ h =>
        simp only [h]
        intro k
        rw [live_of_none (by simp [Cmd.flushall, Keyspace.clear]), live_of_none (by simp [Cmd.flushall, Keyspace.clear])]
      | tame ht => exact absurd (ht.symm.trans hw) (by decide)
      | shrinks ht => exact absurd (ht.symm.trans hw) (by decide)
      | zadd hz => exact absurd ((congrArg CommandSpec.write hz).symm.trans hw) (by decide)

/-- A cycle of active expiry only takes keys out, with their deadlines. -/
theorem cycle_ordered {P : Object → Prop} {db : Keyspace} (now budget : ℕ) (h : InOrder P db) :
    InOrder P (db.activeExpireCycle now budget).1 := by
  have hr := reportsExpired db now budget
  refine ⟨fun k hk => ?_, fun k o hk => ?_⟩
  · rw [hr.dict] at hk
    rw [hr.expires]
    split_ifs at hk ⊢
    · rfl
    · exact h.owned k hk
  · rw [hr.dict] at hk
    split_ifs at hk
    exact h.all k o hk

section Reached

variable {γ : Type} (g : HnswGraph γ)

/-- What a shard can come to store: commands, active expiry, snapshot loads and flushes in any
order and at any readings of the clock. -/
inductive Reached : Store γ → Prop
  | start : Reached ⟨.empty, fun _ => none⟩
  | command {st : Store γ} (env : Env) (argv : List Bytes) (h : Reached st) : Reached (execStore g env argv st).1
  | cycle {st : Store γ} (now budget : ℕ) (h : Reached st) : Reached ⟨(st.db.activeExpireCycle now budget).1, st.vectors⟩
  | load {st : Store γ} (clock : ℕ → ℕ) (levels : Bytes → Levels) (data : Bytes) (h : Reached st) :
      Reached ⟨(Snapshot.loadInto clock levels data st.db).1, st.vectors⟩
  | flush {st : Store γ} (h : Reached st) : Reached ⟨st.db.clear, fun _ => none⟩

variable {g} {st : Store γ}

theorem Reached.owned (h : Reached g st) : Owned st.db := by
  induction h with
  | start => exact .empty
  | @command st env argv h ih =>
    have hin : InOrder (fun _ => True) (execCore (env.withVectors g st.vectors) argv st.db).db :=
      execCore_ordered (fun _ _ => trivial) ih.inOrder fun _ _ _ _ _ => trivial
    exact hin.owned
  | cycle now budget h ih => exact (cycle_ordered (P := fun _ => True) now budget ih.inOrder).owned
  | load clock levels data h ih => exact Snapshot.loadInto_owned clock data ih
  | flush h ih => exact (InOrder.clear (P := fun _ => True) _).owned

/-- Every deadline is that of a key in the dictionary. A command finds no trace of a key that is
not live: it leaves what it would without the entries of that key. -/
theorem deadlines_have_values (h : Reached g st) : (∀ k, (st.db.expires.find k).isSome → (st.db.dict.find k).isSome) ∧
    ∀ (env : Env) (argv : List Bytes) (k : Bytes), st.db.peek env.now k = none →
      LiveEquiv env.now (execStore g env argv st).1.db (execStore g env argv ⟨st.db.erase k, st.vectors⟩).1.db := by
  refine ⟨fun k hk => ?_, fun env argv k hk => ?_⟩
  · by_contra hn
    simp [h.owned k (by simpa using hn)] at hk
  · have hsame : ∀ k', (st.db.erase k).live (env.withVectors g st.vectors).now k' =
        st.db.live (env.withVectors g st.vectors).now k' := by
      intro k'
      rw [live_erase]
      split_ifs with he
      · have hnone : st.db.peek (env.withVectors g st.vectors).now k = none := hk
        rw [he, live, hnone]
        rfl
      · rfl
    exact execCore_live hsame h.owned (h.owned.erase k)

end Reached

/-- A shard after `SET a b PX 10` at the reading 0. -/
def shortLived : Store Unit :=
  (execStore (γ := Unit) ⟨(), fun _ _ _ => (), fun _ _ _ => (), fun _ _ => (), fun _ _ _ _ => []⟩ (.quiet 0)
    [ascii "SET", [97], [98], ascii "PX", ascii "10"] ⟨.empty, fun _ => none⟩).1

/-- `SET a c KEEPTTL` at the reading 20 finds no deadline. -/
theorem deadlines_have_values_keepttl : (∀ k, (shortLived.db.expires.find k).isSome → (shortLived.db.dict.find k).isSome) ∧
    LiveEquiv 20
      (execStore (γ := Unit) ⟨(), fun _ _ _ => (), fun _ _ _ => (), fun _ _ => (), fun _ _ _ _ => []⟩ (.quiet 20)
        [ascii "SET", [97], [99], ascii "KEEPTTL"] shortLived).1.db
      (execStore (γ := Unit) ⟨(), fun _ _ _ => (), fun _ _ _ => (), fun _ _ => (), fun _ _ _ _ => []⟩ (.quiet 20)
        [ascii "SET", [97], [99], ascii "KEEPTTL"] ⟨shortLived.db.erase [97], shortLived.vectors⟩).1.db := by
  have h := deadlines_have_values (.command (.quiet 0) [ascii "SET", [97], [98], ascii "PX", ascii "10"] .start :
    Reached (γ := Unit) ⟨(), fun _ _ _ => (), fun _ _ _ => (), fun _ _ => (), fun _ _ _ _ => []⟩ shortLived)
  have hgone : (shortLived.db.peek (Env.quiet 20).now [97]).isNone = true := by decide +kernel
  exact ⟨h.1, h.2 (.quiet 20) [ascii "SET", [97], [99], ascii "KEEPTTL"] [97] (Option.isNone_iff_eq_none.1 hgone)⟩

end BlazeKV
