import BlazeKV.Proofs.Serial
import BlazeKV.Proofs.SyncedReplies

/-! The log under any policy, while no call on it fails. What a shard has executed stands in the
file and the buffer in its order, and to close the log brings all of it to disk. Under
`appendfsync everysec` it is synced by the first cron that comes a second later. -/

namespace BlazeKV

section Logs

variable {l l' l'' : LogFile} {base b bs : Bytes} {rs : List Bytes} {ws : List WriteResult} {now T : ℕ}

theorem LogFile.flush_eq (hopened : l.opened = true) (hws : .failed ∉ ws) :
    l.flush ws = { l with disk := l.disk ++ l.buf, buf := [] } := by
  unfold LogFile.flush
  by_cases hbuf : l.buf = []
  · rw [if_neg fun h => h.2 hbuf]
    cases l
    dsimp only at hbuf
    rw [hbuf, List.append_nil]
  · rw [if_pos ⟨hopened, hbuf⟩, writeLoop_of_success l.buf hws]

/-- What the calls on a log do but for making it anew: bytes go to the end of the file and of the
buffer, and either all of them are synced or the log waits as long as it did. -/
structure LogFile.Grows (l l' : LogFile) : Prop where
  opened : l'.opened = l.opened
  policy : l'.policy = l.policy
  disk : l.disk <+: l'.disk
  synced : l.synced ≤ l'.synced
  whole : l.disk ++ l.buf <+: l'.disk ++ l'.buf
  waits : (l'.synced = l'.disk.length ∧ l'.buf = []) ∨
    ((l.dirty = true → l'.dirty = true) ∧ l'.lastFsync = l.lastFsync)

theorem LogFile.Grows.refl (l : LogFile) : l.Grows l :=
  ⟨rfl, rfl, List.prefix_refl _, le_refl _, List.prefix_refl _, .inr ⟨id, rfl⟩⟩

/-- A log that holds records behind the bytes that were there when it was opened. -/
structure LogFile.Flows (l : LogFile) (base : Bytes) (rs : List Bytes) : Prop where
  opened : l.opened = true
  whole : l.disk ++ l.buf = base ++ rs.flatten
  synced : l.synced ≤ l.disk.length
  clean : l.dirty = false → rs = [] ∨ (l.synced = l.disk.length ∧ l.buf = [])

/-- The record goes to the end, and is synced at once or waits. -/
theorem LogFile.append_cases (hopened : l.opened = true) (hws : .failed ∉ ws) (b : Bytes) :
    ∃ disk buf, disk ++ buf = l.disk ++ l.buf ++ b ∧ l.disk <+: disk ∧
      ((buf = [] ∧ l.append b ws true =
        { l with disk := disk, buf := buf, synced := disk.length, dirty := false }) ∨
      l.append b ws true = { l with disk := disk, buf := buf, dirty := true }) := by
  obtain ⟨opened, policy, disk, buf, synced, dirty, lastFsync⟩ := l
  dsimp only at hopened
  subst hopened
  have hflush : LogFile.flush ws ⟨true, policy, disk, buf ++ b, synced, dirty, lastFsync⟩ =
      ⟨true, policy, disk ++ (buf ++ b), [], synced, dirty, lastFsync⟩ := LogFile.flush_eq rfl hws
  unfold LogFile.append LogFile.doFsync
  by_cases hpolicy : policy = .always
  · refine ⟨disk ++ (buf ++ b), [], by simp, List.prefix_append _ _, .inl ⟨rfl, ?_⟩⟩
    subst hpolicy
    simp only [or_true, if_true, hflush]
  · by_cases hlong : (buf ++ b).length ≥ 16 * 1024
    · refine ⟨disk ++ (buf ++ b), [], by simp, List.prefix_append _ _, .inr ?_⟩
      simp only [hpolicy, hlong, true_or, if_true, if_false, hflush]
    · refine ⟨disk, buf ++ b, by simp, List.prefix_refl _, .inr ?_⟩
      simp only [hpolicy, hlong, or_self, if_true, if_false]

theorem LogFile.append_kept (hopened : l.opened = true) (hws : .failed ∉ ws) (b : Bytes) :
    (l.append b ws true).policy = l.policy ∧ (l.append b ws true).lastFsync = l.lastFsync := by
  obtain ⟨_, _, -, -, ⟨-, hl⟩ | hl⟩ := LogFile.append_cases hopened hws b
  · rw [hl]
    exact ⟨rfl, rfl⟩
  · rw [hl]
    exact ⟨rfl, rfl⟩

theorem LogFile.tick_cases (hopened : l.opened = true) (hws : .failed ∉ ws) (now : ℕ) :
    l.tick now ws true = l ∨ l.tick now ws true =
      { l with disk := l.disk ++ l.buf, buf := [], synced := (l.disk ++ l.buf).length, dirty := false
               lastFsync := now } := by
  unfold LogFile.tick
  split_ifs with hdue
  · refine .inr ?_
    rw [LogFile.flush_eq hopened hws, LogFile.doFsync, if_pos hopened]
    rfl
  · exact .inl rfl

theorem LogFile.Flows.append (h : l.Flows base rs) (b : Bytes) (hws : .failed ∉ ws) :
    (l.append b ws true).Flows base (rs ++ [b]) ∧ l.Grows (l.append b ws true) := by
  obtain ⟨disk, buf, hwhole, hdisk, hcase⟩ := LogFile.append_cases h.opened hws b
  have hall : disk ++ buf = base ++ (rs ++ [b]).flatten := by
    rw [hwhole, h.whole]
    simp
  have hprefix : l.disk ++ l.buf <+: disk ++ buf := ⟨b, hwhole.symm⟩
  rcases hcase with ⟨rfl, hl⟩ | hl <;> rw [hl]
  · exact ⟨⟨h.opened, hall, le_refl _, fun _ => .inr ⟨rfl, rfl⟩⟩,
      ⟨rfl, rfl, hdisk, h.synced.trans hdisk.length_le, hprefix, .inl ⟨rfl, rfl⟩⟩⟩
  · refine ⟨⟨h.opened, hall, h.synced.trans hdisk.length_le, fun hd => ?_⟩,
      ⟨rfl, rfl, hdisk, le_refl _, hprefix, .inr ⟨fun _ => rfl, rfl⟩⟩⟩
    cases hd

theorem LogFile.Flows.tick (h : l.Flows base rs) (now : ℕ) (hws : .failed ∉ ws) :
    (l.tick now ws true).Flows base rs ∧ l.Grows (l.tick now ws true) := by
  rcases LogFile.tick_cases h.opened hws now with hl | hl <;> rw [hl]
  · exact ⟨h, .refl l⟩
  · refine ⟨⟨h.opened, (List.append_nil _).trans h.whole, le_refl _, fun _ => .inr ⟨rfl, rfl⟩⟩,
      ⟨rfl, rfl, List.prefix_append _ _, ?_, by simp, .inl ⟨rfl, rfl⟩⟩⟩
    rw [List.length_append]
    exact h.synced.trans (Nat.le_add_right _ _)

theorem LogFile.Flows.resetFile (h : l.Flows base rs) (hws : .failed ∉ ws) (now : ℕ) :
    (l.resetFile ws true now).Flows [] [] := by
  unfold LogFile.resetFile LogFile.close
  rw [if_pos h.opened, LogFile.flush_eq h.opened hws, LogFile.doFsync, if_pos h.opened]
  exact ⟨rfl, rfl, le_refl _, fun _ => .inl rfl⟩

theorem LogFile.Flows.close (h : l.Flows base rs) (hws : .failed ∉ ws) :
    (l.close ws true).disk = base ++ rs.flatten ∧
    (l.close ws true).synced = (l.close ws true).disk.length := by
  unfold LogFile.close
  rw [if_pos h.opened, LogFile.flush_eq h.opened hws, LogFile.doFsync, if_pos h.opened]
  exact ⟨h.whole, rfl⟩

/-- Bytes that a loss of power leaves in the file. -/
def LogFile.Saves (l : LogFile) (bs : Bytes) : Prop := bs <+: l.disk.take l.synced

/-- Bytes that are saved, or that wait for a sync since `T` at the latest. -/
def LogFile.Due (l : LogFile) (bs : Bytes) (T : ℕ) : Prop :=
  l.Saves bs ∨ (bs <+: l.disk ++ l.buf ∧ l.dirty = true ∧ l.lastFsync ≤ T)

theorem LogFile.Grows.saves (h : l.Grows l') (hs : l.Saves bs) : l'.Saves bs :=
  hs.trans ((h.disk.take l.synced).trans (List.take_prefix_take_left h.synced))

theorem LogFile.Grows.due (h : l.Grows l') (hdue : l.Due bs T) : l'.Due bs T := by
  rcases hdue with hs | ⟨hbs, hdirty, hlast⟩
  · exact .inl (h.saves hs)
  · rcases h.waits with ⟨hall, hnil⟩ | ⟨hd, hl⟩
    · refine .inl ?_
      have := hbs.trans h.whole
      rw [hnil, List.append_nil] at this
      rwa [LogFile.Saves, hall, List.take_length]
    · exact .inr ⟨hbs.trans h.whole, hd hdirty, hl.trans_le hlast⟩

/-- A cron that comes a second later saves what waits. -/
theorem LogFile.Due.tick (h : l.Due bs T) (hf : l.Flows base rs) (hpolicy : l.policy = .everySec)
    (hws : .failed ∉ ws) (hlate : T + 1000 ≤ now) (hclock : now < 2 ^ 64) :
    (l.tick now ws true).Saves bs := by
  rcases h with hs | ⟨hbs, hdirty, hlast⟩
  · exact (hf.tick now hws).2.saves hs
  · have hwait : u64 (now + 2 ^ 64 - l.lastFsync) ≥ 1000 := by
      unfold u64
      omega
    unfold LogFile.tick
    rw [if_pos ⟨hf.opened, hpolicy, hdirty, hwait⟩, LogFile.flush_eq hf.opened hws, LogFile.doFsync,
      if_pos hf.opened]
    change bs <+: (l.disk ++ l.buf).take (l.disk ++ l.buf).length
    rwa [List.take_length]

/-- What a log keeps until it is made anew. -/
structure LogFile.Keeps (l l' : LogFile) : Prop where
  saves : ∀ bs, l.Saves bs → l'.Saves bs
  due : ∀ bs T, l.Due bs T → l'.Due bs T

theorem LogFile.Keeps.refl (l : LogFile) : l.Keeps l := ⟨fun _ h => h, fun _ _ h => h⟩

theorem LogFile.Keeps.trans (h : l.Keeps l') (h' : l'.Keeps l'') : l.Keeps l'' :=
  ⟨fun bs hs => h'.saves bs (h.saves bs hs), fun bs T hd => h'.due bs T (h.due bs T hd)⟩

theorem LogFile.Grows.keeps (h : l.Grows l') : l.Keeps l' := ⟨fun _ => h.saves, fun _ _ => h.due⟩

/-- The records of a cron: those of the keys that it has expired. -/
theorem LogFile.Flows.expired (h : l.Flows base rs) {io : Calls} (hio : io.Succeed)
    (ks : List Bytes) (i : ℕ) :
    let l' := (ks.foldl (fun (s : ℕ × LogFile) k => (s.1 + 1,
      s.2.append (encodeMultibulk [ascii "DEL", k]) (io.results s.1) (io.synced s.1))) (i, l)).2
    l'.Flows base (rs ++ ks.map fun k => encodeMultibulk [ascii "DEL", k]) ∧ l.Keeps l' ∧
      l'.policy = l.policy ∧ l'.lastFsync = l.lastFsync := by
  induction ks generalizing l rs i with
  | nil => exact ⟨by simpa using h, .refl l, rfl, rfl⟩
  | cons k ks ih =>
    obtain ⟨hone, hgrows⟩ := h.append (encodeMultibulk [ascii "DEL", k]) (hio i).1
    obtain ⟨hpolicy, hlast⟩ := LogFile.append_kept h.opened (hio i).1 (encodeMultibulk [ascii "DEL", k])
    obtain ⟨hall, hkeeps, hpolicy', hlast'⟩ := ih hone (i + 1)
    rw [List.append_assoc] at hall
    rw [List.foldl_cons, (hio i).2]
    exact ⟨hall, hgrows.keeps.trans hkeeps, hpolicy'.trans hpolicy, hlast'.trans hlast⟩

end Logs

section Servers

variable {n : ℕ} {shardFor : Bytes → Fin n} {t : Traced n} {j : Fin n} {base₀ : Bytes}

/-- Records in their order, with those of active expiry between them. -/
def Interleaved (bs rs : List Bytes) : Prop :=
  bs.Sublist rs ∧ ∀ r ∈ rs, r ∈ bs ∨ ∃ k, r = encodeMultibulk [ascii "DEL", k]

theorem Interleaved.append {bs rs bs' rs' : List Bytes} (h : Interleaved bs rs)
    (h' : Interleaved bs' rs') :
    Interleaved (bs ++ bs') (rs ++ rs') := by
  refine ⟨h.1.append h'.1, fun r hr => ?_⟩
  rcases List.mem_append.1 hr with hr | hr
  · exact (h.2 r hr).imp_left fun hb => List.mem_append_left _ hb
  · exact (h'.2 r hr).imp_left fun hb => List.mem_append_right _ hb

theorem Interleaved.refl (bs : List Bytes) : Interleaved bs bs :=
  ⟨List.Sublist.refl bs, fun _ hr => .inl hr⟩

theorem Interleaved.expired (ks : List Bytes) :
    Interleaved [] (ks.map fun k => encodeMultibulk [ascii "DEL", k]) := by
  refine ⟨List.nil_sublist _, fun r hr => .inr ?_⟩
  obtain ⟨k, -, rfl⟩ := List.mem_map.1 hr
  exact ⟨k, rfl⟩

/-- The record of a command, where it has one. -/
theorem LogFile.Flows.record {l : LogFile} {base : Bytes} {rs : List Bytes} (h : l.Flows base rs)
    {io : Calls} (hio : io.Succeed) (record : Option Bytes) :
    let l' := record.elim l fun b => l.append b (io.results 1) (io.synced 1)
    l'.Flows base (rs ++ record.toList) ∧ l.Keeps l' ∧ l'.policy = l.policy ∧
    l'.lastFsync = l.lastFsync := by
  cases record with
  | none => exact ⟨by simpa using h, .refl l, rfl, rfl⟩
  | some b =>
    dsimp only [Option.elim_some, Option.toList_some]
    rw [(hio 1).2]
    obtain ⟨hflows, hgrows⟩ := h.append b (hio 1).1
    exact ⟨hflows, hgrows.keeps, LogFile.append_kept h.opened (hio 1).1 b⟩

end Servers

end BlazeKV
