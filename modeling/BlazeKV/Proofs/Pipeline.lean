import BlazeKV.Spec.Shard

/-! The slots of a reply pipeline are determined by the requests of the connection:
one slot for each request that has not been answered, in the order of submission. -/

namespace BlazeKV

/-- The reply of a command from the fragments of its keys, in the order of the keys. -/
def assembled (kind : Kind) (frags : List Bytes) : Bytes :=
  match kind with
  | .single => frags.headD []
  | .mget => Reply.arrayHeader frags.length ++ frags.flatten
  | .mset => Reply.simpleString (ascii "OK")
  | .delCount | .existsCount => Reply.integer (frags.map parseRespInteger).sum

def given (f : Option Bytes) : Bytes := f.getD []

def missing (frags : List (Option Bytes)) : ℕ := frags.countP Option.isNone

/-- The sum of the counts that have arrived. -/
def tally (frags : List (Option Bytes)) : ℤ := (frags.map fun f => parseRespInteger (given f)).sum

theorem assembled_count {kind : Kind} (h : kind.isInt) (frags : List (Option Bytes)) :
    assembled kind (frags.map given) = Reply.integer (tally frags) := by
  have : ((frags.map given).map parseRespInteger).sum = tally frags := by
    rw [List.map_map]
    rfl
  cases kind with
  | delCount | existsCount => exact congrArg Reply.integer this
  | single | mget | mset => cases h

namespace Answer

/-- The complete reply; `none` while a fragment is missing. -/
def reply : Answer → Option Bytes
  | here b => some b
  | parts kind frags => if missing frags = 0 then some (assembled kind (frags.map given)) else none

/-- The slot that an answer has in the pipeline. -/
def slot : Answer → PendingReply
  | here b => .done b
  | parts kind frags =>
    { ready := missing frags = 0
      bytes := if missing frags = 0 then assembled kind (frags.map given) else []
      kind := kind
      remaining := missing frags
      frags := if kind.isInt then List.replicate frags.length [] else frags.map given
      accum := if kind.isInt then tally frags else 0 }

@[simp] theorem slot_ready (a : Answer) : a.slot.ready = a.reply.isSome := by
  cases a with
  | here b => rfl
  | parts kind frags =>
    by_cases h : missing frags = 0 <;> simp [slot, reply, h]

theorem slot_bytes {a : Answer} {b : Bytes} (h : a.reply = some b) : a.slot.bytes = b := by
  cases a with
  | here c => exact Option.some.inj h
  | parts kind frags =>
    by_cases hm : missing frags = 0
    · simpa [reply, slot, hm] using h
    · simp [reply, hm] at h

theorem slot_waiting (kind : Kind) {n : ℕ} (h : 0 < n) :
    (parts kind (List.replicate n none)).slot = .waiting kind n := by
  have hm : missing (List.replicate n none) = n := by simp [missing, List.countP_replicate]
  have hg : (List.replicate n (none : Option Bytes)).map given = List.replicate n [] := List.map_replicate
  have ht : tally (List.replicate n none) = 0 := by
    rw [tally, List.map_replicate, List.sum_replicate]
    exact smul_zero n
  have hn : n ≠ 0 := by omega
  simp only [slot, PendingReply.waiting, hm, hg, ht, List.length_replicate, ite_self]
  simp [hn]

end Answer

theorem missing_set {frags : List (Option Bytes)} {i : ℕ} (b : Bytes) (h : frags[i]? = some none) :
    missing (frags.set i (some b)) + 1 = missing frags := by
  induction frags generalizing i with
  | nil => simp at h
  | cons f frags ih =>
    cases i with
    | zero =>
      obtain rfl : f = none := by simpa using h
      simp [missing]
    | succ i =>
      have := ih (i := i) (by simpa using h)
      simp only [missing, List.set_cons_succ, List.countP_cons] at this ⊢
      omega

theorem tally_set {frags : List (Option Bytes)} {i : ℕ} (b : Bytes) (h : frags[i]? = some none) :
    tally (frags.set i (some b)) = tally frags + parseRespInteger b := by
  induction frags generalizing i with
  | nil => simp at h
  | cons f frags ih =>
    cases i with
    | zero =>
      obtain rfl : f = none := by simpa using h
      have h0 : parseRespInteger [] = 0 := rfl
      simp [tally, h0, given, add_comm]
    | succ i =>
      have := ih (i := i) (by simpa using h)
      unfold tally at this ⊢
      simp only [List.set_cons_succ, List.map_cons, List.sum_cons, this, add_assoc]

/-- Whether a request waits for the fragment with an index. -/
def Request.awaits (r : Request) (index : ℕ) (isInt : Bool) : Bool :=
  match r.answer with
  | .here _ => false
  | .parts kind frags => frags[index]? = some none ∧ kind.isInt = isInt

theorem Request.awaits_iff {r : Request} {index : ℕ} {isInt : Bool} : r.awaits index isInt ↔
    ∃ kind frags, r.answer = .parts kind frags ∧ frags[index]? = some none ∧ kind.isInt = isInt := by
  unfold awaits
  cases r.answer <;> simp

/-- The step lemma of a fragment: the slot follows the answer. -/
theorem slot_fill {r : Request} {part : Part} (reply : Bytes) (h : r.awaits part.index part.isInt) :
    (r.answer.fill part reply).slot = r.answer.slot.complete part reply := by
  obtain ⟨kind, frags, hr, hi, hk⟩ := Request.awaits_iff.1 h
  have hm := missing_set reply hi
  have hcast : (missing frags : ℤ) - 1 = missing (frags.set part.index (some reply)) := by omega
  have hmap : (frags.set part.index (some reply)).map given = (frags.map given).set part.index reply := by
    rw [List.map_set]
    rfl
  have hbusy : missing frags ≠ 0 := by omega
  rw [hr]
  simp only [Answer.fill, Answer.slot, PendingReply.complete, ← hk]
  cases hint : kind.isInt with
  | false =>
    simp only [Bool.false_eq_true, if_false, hcast, hmap, hbusy]
    by_cases hz : missing (frags.set part.index (some reply)) = 0
    · cases kind <;> simp_all [PendingReply.assemble, assembled, Kind.isInt]
    · simp [hz]
  | true =>
    simp only [if_true, hcast, hbusy, tally_set reply hi, assembled_count hint, List.length_set]
    by_cases hz : missing (frags.set part.index (some reply)) = 0
    · cases kind <;> simp_all [PendingReply.assemble, Kind.isInt]
    · simp [hz]

/-- The slots of requests that were submitted from number `m` on. -/
def slotsFrom : ℕ → List Request → Pipeline
  | _, [] => []
  | m, r :: rs => (m, r.answer.slot) :: slotsFrom (m + 1) rs

theorem set_slotsFrom_end (m : ℕ) (rs : List Request) (r : Request) :
    (slotsFrom m rs).set (m + rs.length) r.answer.slot = slotsFrom m (rs ++ [r]) := by
  induction rs generalizing m with
  | nil => simp [slotsFrom, Pipeline.set]
  | cons q rs ih =>
    have := ih (m + 1)
    rw [show m + 1 + rs.length = m + (rs.length + 1) by omega] at this
    simp [slotsFrom, Pipeline.set, this]

theorem find_slotsFrom (m i : ℕ) (rs : List Request) :
    (slotsFrom m rs).find (m + i) = rs[i]?.map fun r => r.answer.slot := by
  induction rs generalizing m i with
  | nil => rfl
  | cons q rs ih =>
    cases i with
    | zero => simp [slotsFrom, Pipeline.find]
    | succ i =>
      have := ih (m + 1) i
      rw [show m + 1 + i = m + (i + 1) by omega] at this
      have hne : (m + (i + 1) == m) = false := by simp
      simpa [slotsFrom, Pipeline.find, List.lookup_cons, hne] using this

theorem set_slotsFrom {m i : ℕ} {rs : List Request} {r : Request} (f : Request → Request)
    (h : rs[i]? = some r) :
    (slotsFrom m rs).set (m + i) (f r).answer.slot = slotsFrom m (rs.modify i f) := by
  induction rs generalizing m i with
  | nil => simp at h
  | cons q rs ih =>
    cases i with
    | zero =>
      obtain rfl : q = r := by simpa using h
      simp [slotsFrom, Pipeline.set]
    | succ i =>
      have := ih (m := m + 1) (i := i) (by simpa using h)
      rw [show m + 1 + i = m + (i + 1) by omega] at this
      simp [slotsFrom, Pipeline.set, this]

/-- The replies of requests, one after the other; `none` unless all are complete. -/
def repliesOf : List Request → Option Bytes
  | [] => some []
  | r :: rs => do
    let b ← r.answer.reply
    let bs ← repliesOf rs
    return b ++ bs

theorem repliesOf_append {rs qs : List Request} {a b : Bytes} (ha : repliesOf rs = some a)
    (hb : repliesOf qs = some b) : repliesOf (rs ++ qs) = some (a ++ b) := by
  induction rs generalizing a with
  | nil =>
    obtain rfl := Option.some.inj ha
    exact hb
  | cons r rs ih =>
    simp only [repliesOf, Option.bind_eq_bind, Option.bind_eq_some_iff, Option.pure_def,
      Option.some.injEq] at ha
    obtain ⟨x, hx, y, hy, rfl⟩ := ha
    simp [repliesOf, hx, ih hy]

theorem reply_of_repliesOf {rs : List Request} {b : Bytes} (h : repliesOf rs = some b) :
    ∀ r ∈ rs, ∃ c, r.answer.reply = some c := by
  induction rs generalizing b with
  | nil => simp
  | cons q rs ih =>
    simp only [repliesOf, Option.bind_eq_bind, Option.bind_eq_some_iff] at h
    obtain ⟨x, hx, y, hy, -⟩ := h
    intro r hr
    rcases List.mem_cons.1 hr with rfl | hr
    · exact ⟨x, hx⟩
    · exact ih hy r hr

/-- A request that waits is not among requests with replies. -/
theorem length_le_of_awaits {rs : List Request} {m i index : ℕ} {isInt : Bool} {r : Request} {b : Bytes}
    (hb : repliesOf (rs.take m) = some b) (hr : rs[i]? = some r) (h : r.awaits index isInt) : m ≤ i := by
  by_contra hlt
  obtain ⟨kind, frags, ha, hi, -⟩ := Request.awaits_iff.1 h
  have hnone : r.answer.reply = none := by
    have := missing_set [] hi
    rw [ha, Answer.reply, if_neg (by omega)]
  clear ha hi h
  induction rs generalizing m i b with
  | nil => simp at hr
  | cons q rs ih =>
    cases m with
    | zero => omega
    | succ m =>
      simp only [List.take_succ_cons, repliesOf, Option.bind_eq_bind, Option.bind_eq_some_iff] at hb
      obtain ⟨x, hx, y, hy, -⟩ := hb
      cases i with
      | zero =>
        obtain rfl : q = r := by simpa using hr
        rw [hnone] at hx
        cases hx
      | succ i => exact ih hy (by simpa using hr) (by omega)

/-- The flush appends the replies of the leading complete requests and stops at the
first one that still waits. -/
theorem flush_slotsFrom (m : ℕ) (rs : List Request) : ∃ k ≤ rs.length,
    repliesOf (rs.take k) = some (slotsFrom m rs).flush.1 ∧
      (slotsFrom m rs).flush.2 = slotsFrom (m + k) (rs.drop k) ∧
      ∀ r ∈ rs[k]?, r.answer.reply = none := by
  induction rs generalizing m with
  | nil => exact ⟨0, le_refl 0, rfl, rfl, by simp⟩
  | cons q rs ih =>
    cases hq : q.answer.reply with
    | none =>
      refine ⟨0, Nat.zero_le _, ?_, ?_, by simpa using hq⟩
      · simp [slotsFrom, Pipeline.flush, hq, repliesOf]
      · simp [slotsFrom, Pipeline.flush, hq]
    | some b =>
      obtain ⟨k, hk, hb, hrest, hstop⟩ := ih (m + 1)
      refine ⟨k + 1, by simpa using hk, ?_, ?_, by simpa using hstop⟩
      · simp [slotsFrom, Pipeline.flush, hq, repliesOf, hb, Answer.slot_bytes hq]
      · rw [show m + (k + 1) = m + 1 + k by omega]
        simp [slotsFrom, Pipeline.flush, hq, hrest]

end BlazeKV
