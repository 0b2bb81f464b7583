import BlazeKV.Proofs.ExpireCycle
import BlazeKV.Proofs.Recovered
import BlazeKV.Proofs.TwoClocks

/-! The log of one shard, replayed at a time of its own. The records are the commands as
the clients sent them, and the replay reads the clock anew. -/

namespace BlazeKV

open Keyspace

section Steps

variable {γ : Type} (g : HnswGraph γ) {env env' : Env} {argv : List Bytes} {st st' : Store γ} {later : ℕ}

theorem timed_shrinkers : ∀ name ∈ timed, name ∉ shrinkers := by decide

theorem exec_owned (hn : lowercase (cmdName argv) ∈ timed) (h : Owned st.db) : Owned (execStore g env argv st).1.db := by
  cases hr : route argv with
  | error e => rwa [execStore_error g env argv st hr]
  | ok spec =>
    rw [execStore_ok g env argv st hr]
    exact owned_kept hr ((find_mem (route_ok hr).1).2 ▸ hn) h

/-- A command of the log, in the run and in the replay. -/
theorem exec_later (hn : lowercase (cmdName argv) ∈ timed) {b : Bytes} (hb : (execStore g env argv st).2.record = some b)
    (hle : env.now ≤ later) (hl : env.now < later → Lasting later env argv st.db) (hnow : env'.now = later)
    (ho : Owned st.db) (ho' : Owned st'.db) (h : LiveEquiv later st.db st'.db) :
    LiveEquiv later (execStore g env argv st).1.db (execStore g env' argv st').1.db := by
  cases hr : route argv with
  | error e => simp [execStore_error g env argv st hr] at hb
  | ok spec =>
    have hmem : spec.name ∈ timed := (find_mem (route_ok hr).1).2 ▸ hn
    rw [execStore_ok g env argv st hr] at hb ⊢
    rw [execStore_ok g env' argv st' hr]
    dsimp only at hb ⊢
    split_ifs at hb with hd
    obtain ⟨hdirty, hw⟩ := Bool.and_eq_true_iff.1 hd
    rcases hle.eq_or_lt with heq | hlt
    · subst heq
      have hkept : LiveEquiv env.now (spec.fn (env.withVectors g st.vectors) argv st.db).db
          (spec.fn (env'.withVectors g st'.vectors) argv st'.db).db := live_kept hr hmem hw hnow h ho ho'
      exact hkept
    · have hlast : LiveEquiv later (spec.fn (env.withVectors g st.vectors) argv st.db).db
          (spec.fn { env.withVectors g st.vectors with now := later } argv st.db).db :=
        lasts hr hmem hle hdirty (hl hlt)
      have hkept : LiveEquiv later (spec.fn { env.withVectors g st.vectors with now := later } argv st.db).db
          (spec.fn (env'.withVectors g st'.vectors) argv st'.db).db := live_kept hr hmem hw hnow h ho ho'
      exact hlast.trans hkept

/-- A key that is not live can be erased. -/
theorem Keyspace.LiveEquiv.erase_right {db db' : Keyspace} {k : Bytes} (h : LiveEquiv later db db') (hk : db.live later k = none) :
    LiveEquiv later db (db'.erase k) := by
  intro k'
  rw [live_erase]
  split_ifs with he
  · rw [he, hk]
  · exact h k'

/-- Records of keys that are not live, in the replay. -/
theorem replay_dels {db : Keyspace} {clock : ℕ → Env} (ks : List Bytes) (hks : ∀ k ∈ ks, db.live later k = none)
    (r : ℕ × Store γ) (ho : Owned r.2.db) (h : LiveEquiv later db r.2.db) :
    Owned ((ks.map fun k => [ascii "DEL", k]).foldl (Host.execReplay g clock) r).2.db ∧
      LiveEquiv later db ((ks.map fun k => [ascii "DEL", k]).foldl (Host.execReplay g clock) r).2.db := by
  induction ks generalizing r with
  | nil => exact ⟨ho, h⟩
  | cons k ks ih =>
    have hdel : (Host.execReplay g clock r [ascii "DEL", k]).2.db = r.2.db.erase k :=
      congrArg (fun x : Node γ => x.store.db) (exec_del g (clock r.1) k ⟨r.2, none⟩)
    refine ih (fun k hk => hks k (List.mem_cons_of_mem _ hk)) _ ?_ ?_
    · rw [hdel]
      exact ho.erase k
    · rw [hdel]
      exact h.erase_right (hks k List.mem_cons_self)

/-- Active expiry, later. -/
theorem expired_later {db : Keyspace} {now : ℕ} (hle : now ≤ later) (ho : Owned db) :
    Owned (db.activeExpireCycle now 20).1 ∧ LiveEquiv later db (db.activeExpireCycle now 20).1 ∧
      ∀ k ∈ (db.activeExpireCycle now 20).2, db.live later k = none := by
  have hcycle := reportsExpired db now 20
  have hdead : ∀ k ∈ (db.activeExpireCycle now 20).2, db.live later k = none := fun k hk =>
    live_of_dead (dead_mono hle (hcycle.dead k hk))
  refine ⟨fun k hk => ?_, fun k => ?_, hdead⟩
  · rw [hcycle.dict] at hk
    rw [hcycle.expires]
    split_ifs at hk ⊢
    · rfl
    · exact ho k hk
  · by_cases hk : k ∈ (db.activeExpireCycle now 20).2
    · rw [hdead k hk, live_of_none (by rw [hcycle.dict, if_pos hk])]
    · rw [live_congr (by rw [hcycle.dict, if_neg hk]) (by rw [hcycle.expires, if_neg hk])]

end Steps

section Run

variable {γ : Type} (g : HnswGraph γ)

/-- What a shard does between two starts: commands, and active expiry with the tick of its log. -/
inductive Turn
  | command (env : Env) (argv : List Bytes)
  | cron (now : ℕ) (synced : Bool)

def Turn.now : Turn → ℕ
  | .command env _ => env.now
  | .cron now _ => now

def Host.turn (h : Host γ) : Turn → Host γ
  | .command env argv => h.exec g env argv
  | .cron now synced => h.cron now synced

/-- The condition on a run: its records can be read back, and what was executed before `later`
does as much then. -/
def Punctual (later : ℕ) : Host γ → List Turn → Prop
  | h, [] => ∀ a ∈ h.node.aof, a.close.length < 2 ^ 62
  | h, .command env argv :: ts =>
    (∀ c ∈ recorded g env argv h.node.store, Fits c ∧ (env.now < later → Lasting later env c h.node.store.db)) ∧
      Punctual later (h.exec g env argv) ts
  | h, .cron now synced :: ts => Punctual later (h.cron now synced) ts

/-- The log, replayed at `later`, gives what is live then. -/
structure Replays (later : ℕ) (h : Host γ) (cs : List (List Bytes)) : Prop where
  owned : Owned h.node.store.db
  snapshot : h.snapshot = none
  log : ∃ a, h.node.aof = some a ∧ a.close = logOf cs
  records : ∀ c ∈ cs, c ≠ [] ∧ Fits c
  back : ∀ clock : ℕ → Env, (∀ i, (clock i).now = later) →
    let r := cs.foldl (Host.execReplay g clock) (0, ⟨.empty, fun _ => none⟩)
    Owned r.2.db ∧ LiveEquiv later h.node.store.db r.2.db

variable {g} {later : ℕ} {h : Host γ} {cs : List (List Bytes)}

theorem Replays.command (hh : Replays g later h cs) {env : Env} {argv : List Bytes}
    (hn : lowercase (cmdName argv) ∈ timed) (hle : env.now ≤ later)
    (hok : ∀ c ∈ recorded g env argv h.node.store, Fits c ∧ (env.now < later → Lasting later env c h.node.store.db)) :
    Replays g later (h.exec g env argv) (cs ++ recorded g env argv h.node.store) := by
  obtain ⟨a, ha, hlog⟩ := hh.log
  have howned : Owned (execStore g env argv h.node.store).1.db := exec_owned g hn hh.owned
  have hfl : ¬flushes argv := by
    rintro ⟨spec, hr, hname⟩
    rw [(find_mem (route_ok hr).1).2] at hname
    rcases hname with hname | hname <;> exact absurd hn (by rw [hname]; decide)
  have hflush : (execStore g env argv h.node.store).2.flush = false := exec_flush g hfl
  cases hrec : (execStore g env argv h.node.store).2.record with
  | none =>
    have haof : (h.exec g env argv).node.aof = some a := by simp [Host.exec, Node.exec, hflush, hrec, ha]
    have hsame : LiveEquiv later h.node.store.db (execStore g env argv h.node.store).1.db := by
      cases hr : route argv with
      | error e => rw [execStore_error g env argv _ hr]
      | ok spec =>
        have hname := (find_mem (route_ok hr).1).2
        refine LiveEquiv.at_later hle (unrecorded_keeps g hr hfl ?_ ?_ hrec)
        · rw [zaddPartial_ok hr, hname]
          exact fun hz => absurd hn (by rw [hz.1]; decide)
        · rw [quietErase_ok hr, hname, quietlyErases_none (timed_shrinkers _ hn)]
          exact Bool.false_ne_true
    simp only [recorded, hrec, Option.isSome_none, Bool.false_eq_true, if_false, List.append_nil]
    refine ⟨howned, hh.snapshot, ⟨a, haof, hlog⟩, hh.records, fun clock hclock => ?_⟩
    obtain ⟨hback, hlive⟩ := hh.back clock hclock
    exact ⟨hback, hsame.symm.trans hlive⟩
  | some b =>
    obtain ⟨rfl, hl⟩ := record_spec g hrec
    simp only [recorded, hrec, Option.isSome_some, if_true, List.mem_singleton, forall_eq] at hok ⊢
    have haof : (h.exec g env argv).node.aof = some (a.append (encodeMultibulk argv)) := by
      simp [Host.exec, Node.exec, hflush, hrec, ha]
    refine ⟨howned, hh.snapshot, ⟨_, haof, by simp [hlog, logOf]⟩, fun c hmem => ?_, fun clock hclock => ?_⟩
    · rcases List.mem_append.1 hmem with hmem | hmem
      · exact hh.records c hmem
      · exact List.mem_singleton.1 hmem ▸ ⟨hl.ne_nil, hok.1⟩
    · obtain ⟨hback, hlive⟩ := hh.back clock hclock
      rw [List.foldl_append]
      exact ⟨exec_owned g hn hback, exec_later g hn hrec hle hok.2 (hclock _) hh.owned hback hlive⟩

theorem Replays.cron (hh : Replays g later h cs) {now : ℕ} (hle : now ≤ later) (synced : Bool) :
    Replays g later (h.cron now synced) (cs ++ (h.node.store.db.activeExpireCycle now 20).2.map fun k => [ascii "DEL", k]) := by
  obtain ⟨a, ha, hlog⟩ := hh.log
  obtain ⟨howned, hsame, hdead⟩ := expired_later hle hh.owned
  have hclose : ∀ ks : List Bytes, (ks.foldl (fun a k => a.append (encodeMultibulk [ascii "DEL", k])) a).close =
      logOf (cs ++ ks.map fun k => [ascii "DEL", k]) := by
    intro ks
    have := close_foldl_append a (ks.map fun k => [ascii "DEL", k])
    rw [List.foldl_map] at this
    rw [this, hlog, logOf, logOf, logOf, List.flatMap_append]
  refine ⟨howned, hh.snapshot, ?_, fun c hc => ?_, fun clock hclock => ?_⟩
  · simp only [Host.cron, ha, Option.map_some, Option.some.injEq, exists_eq_left']
    split_ifs
    · rw [Aof.close_flush, hclose]
    · exact hclose _
  · rcases List.mem_append.1 hc with hc | hc
    · exact hh.records c hc
    · obtain ⟨k, -, rfl⟩ := List.mem_map.1 hc
      exact ⟨List.cons_ne_nil _ _, (by decide : (2 : ℤ) ≤ RequestParser.kMaxCount)⟩
  · obtain ⟨hback, hlive⟩ := hh.back clock hclock
    have hdead' : ∀ k ∈ (h.node.store.db.activeExpireCycle now 20).2,
        (h.node.store.db.activeExpireCycle now 20).1.live later k = none := by
      intro k hk
      have := hsame k
      rw [hdead k hk] at this
      cases hl : (h.node.store.db.activeExpireCycle now 20).1.live later k with
      | none => rfl
      | some e =>
        rw [hl] at this
        exact False.elim this
    rw [List.foldl_append]
    exact replay_dels g _ hdead' _ hback (hsame.symm.trans hlive)

/-- The run lemma. -/
theorem run_replays {ts : List Turn} (hh : Replays g later h cs)
    (htimed : ∀ env argv, .command env argv ∈ ts → lowercase (cmdName argv) ∈ timed)
    (htime : ∀ t ∈ ts, t.now ≤ later) (hok : Punctual g later h ts) :
    ∃ cs', Replays g later (ts.foldl (Host.turn g) h) cs' ∧
      ∀ a ∈ (ts.foldl (Host.turn g) h).node.aof, a.close.length < 2 ^ 62 := by
  induction ts generalizing h cs with
  | nil => exact ⟨cs, hh, hok⟩
  | cons t ts ih =>
    have htimed' := fun env argv hm => htimed env argv (List.mem_cons_of_mem t hm)
    have htime' := fun t' hm => htime t' (List.mem_cons_of_mem t hm)
    have hle := htime t List.mem_cons_self
    cases t with
    | command env argv => exact ih (hh.command (htimed env argv List.mem_cons_self) hle hok.1) htimed' htime' hok.2
    | cron now synced => exact ih (hh.cron hle synced) htimed' htime' hok

variable (g) in
/-- Commands of strings and deadlines, executed with active expiry between them, each at a
time of its own: the log, replayed at a time that is not earlier, gives what is live then,
whenever the run meets the condition. -/
theorem replay_agrees_later (policy : FsyncPolicy) (ts : List Turn)
    (htimed : ∀ env argv, .command env argv ∈ ts → lowercase (cmdName argv) ∈ timed)
    (later : ℕ) (htime : ∀ t ∈ ts, t.now ≤ later) (hok : Punctual g later (freshHost policy) ts)
    (levels : Bytes → Levels) (clock : ℕ → Env) (hclock : ∀ i, (clock i).now = later) :
    let h : Host γ := ts.foldl (Host.turn g) (freshHost policy)
    ∃ st, Host.loadPersistence g later levels clock h.snapshot (h.node.aof.map Aof.close) = some st ∧
      LiveEquiv later h.node.store.db st.db := by
  have hfresh : Replays g later (freshHost policy : Host γ) [] :=
    ⟨.empty, rfl, ⟨_, rfl, rfl⟩, by simp, fun _ _ => ⟨.empty, .refl _⟩⟩
  obtain ⟨cs, hh, hsize⟩ := run_replays hfresh htimed htime hok
  dsimp only
  generalize ts.foldl (Host.turn g) (freshHost policy) = h at hh hsize
  obtain ⟨a, ha, hlog⟩ := hh.log
  refine ⟨(replay (Host.execReplay g clock) a.close (0, ⟨.empty, fun _ => none⟩)).2, ?_, ?_⟩
  · rw [hh.snapshot, ha]
    rfl
  · have hlen := hsize a ha
    rw [hlog] at hlen ⊢
    rw [replay_eq_foldl, replayed_logOf hh.records hlen]
    exact (hh.back clock hclock).2

end Run

/-- `SET a x EXAT 100`, then `APPEND a y`. -/
theorem replay_agrees_later_append :
    let ts : List Turn := [.command (.quiet 0) [ascii "SET", [97], [120], ascii "EXAT", ascii "100"],
      .cron 2 true, .command (.quiet 3) [ascii "APPEND", [97], [121]]]
    let h : Host Unit := ts.foldl (Host.turn noGraph) (freshHost .always)
    ∃ st, Host.loadPersistence noGraph 5 (fun _ _ => ⟨0, by decide⟩) (fun _ => .quiet 5) h.snapshot
      (h.node.aof.map Aof.close) = some st ∧ LiveEquiv 5 h.node.store.db st.db := by
  refine replay_agrees_later noGraph .always [.command (.quiet 0) [ascii "SET", [97], [120], ascii "EXAT", ascii "100"],
    .cron 2 true, .command (.quiet 3) [ascii "APPEND", [97], [121]]] ?_ 5 (by simp [Turn.now, Env.quiet]) ?_ _ _ fun _ => rfl
  · intro env argv h
    simp only [List.mem_cons, Turn.command.injEq, reduceCtorEq, false_or, List.not_mem_nil, or_false] at h
    rcases h with ⟨-, rfl⟩ | ⟨-, rfl⟩ <;> decide
  · refine ⟨fun c hc => ?_, fun c hc => ?_, fun a ha => ?_⟩
    · have hc : c ∈ [[ascii "SET", [97], [120], ascii "EXAT", ascii "100"]] := hc
      obtain rfl := List.mem_singleton.1 hc
      refine ⟨by decide, fun _ => ⟨by decide, fun h => absurd h (by decide), fun _ => rfl, fun h => ?_⟩⟩
      exact absurd h (by decide +kernel)
    · have hc : c ∈ [[ascii "APPEND", [97], [121]]] := hc
      obtain rfl := List.mem_singleton.1 hc
      refine ⟨by decide, fun _ => ⟨by decide, fun h => absurd h (by decide), fun h => absurd h (by decide), fun h => ?_⟩⟩
      exact absurd h (by decide +kernel)
    · have ha : a ∈ some ((((Aof.openFile .always []).append (encodeMultibulk [ascii "SET", [97], [120],
        ascii "EXAT", ascii "100"]))).append (encodeMultibulk [ascii "APPEND", [97], [121]])) := ha
      obtain rfl := Option.some.inj ha
      rw [Aof.close_append, Aof.close_append, Aof.close_openFile]
      decide +kernel

/-- `SET a x EX 10`, and a start five milliseconds later: the deadline moves with it. -/
theorem replay_moves_deadline : ¬ ∀ (policy : FsyncPolicy) (ts : List Turn),
    (∀ env argv, .command env argv ∈ ts → lowercase (cmdName argv) ∈ timed) →
    (ts.map Turn.now).Pairwise (· ≤ ·) → ∀ later : ℕ, (∀ t ∈ ts, t.now ≤ later) →
    ∀ (levels : Bytes → Levels) (clock : ℕ → Env), (∀ i, (clock i).now = later) →
    let h : Host Unit := ts.foldl (Host.turn noGraph) (freshHost policy)
    ∃ st, Host.loadPersistence noGraph later levels clock h.snapshot (h.node.aof.map Aof.close) = some st ∧
      LiveEquiv later h.node.store.db st.db := by
  intro h
  have htimed : ∀ env argv, .command env argv ∈
      [Turn.command (.quiet 0) [ascii "SET", [97], [120], ascii "EX", ascii "10"]] → lowercase (cmdName argv) ∈ timed := by
    intro env argv hm
    obtain ⟨-, rfl⟩ := Turn.command.inj (List.mem_singleton.1 hm)
    decide
  obtain ⟨st, hst, hlive⟩ := h .always _ htimed (List.pairwise_singleton _ _) 5 (by simp [Turn.now, Env.quiet])
    (fun _ _ => ⟨0, by decide⟩) (fun _ => .quiet 5) fun _ => rfl
  have hrun : (([Turn.command (.quiet 0) [ascii "SET", [97], [120], ascii "EX", ascii "10"]].foldl (Host.turn noGraph)
      (freshHost .always)).node.store.db.live 5 [97]).map Prod.snd = some (some 10000) := by decide +kernel
  have hback : (Host.loadPersistence noGraph 5 (fun _ _ => ⟨0, by decide⟩) (fun _ => .quiet 5)
      ([Turn.command (.quiet 0) [ascii "SET", [97], [120], ascii "EX", ascii "10"]].foldl (Host.turn noGraph)
        (freshHost .always)).snapshot
      (([Turn.command (.quiet 0) [ascii "SET", [97], [120], ascii "EX", ascii "10"]].foldl (Host.turn noGraph)
        (freshHost .always)).node.aof.map Aof.close)).map (fun st => (st.db.live 5 [97]).map Prod.snd) =
      some (some (some 10005)) := by decide +kernel
  rw [hst, Option.map_some] at hback
  have hk := hlive [97]
  obtain ⟨e, he, hd⟩ := Option.map_eq_some_iff.1 hrun
  obtain ⟨e', he', hd'⟩ := Option.map_eq_some_iff.1 (Option.some.inj hback)
  rw [he, he'] at hk
  rw [hk.2, hd'] at hd
  exact absurd hd (by decide)

end BlazeKV
