import BlazeKV.Proofs.Representation
import BlazeKV.Proofs.Cells
import BlazeKV.Proofs.ZRange

/-! The handlers of lists, sets and hashes do what these are for. -/

namespace BlazeKV

open Keyspace Lib Abstract

/-! How a kind of container is stored. -/

/-- The accessor of a kind, and what the table behind it contains. -/
structure Stores {α β : Type} (K : Container α) (view : Object → Option β) (abs : β → α)
    (fresh : β) : Prop where
  absent : K.view none = some (abs fresh)
  empty : K.wrap (abs fresh) = none
  wrong : ∀ o, view o = none → K.view (some (valueOf o)) = none
  present : ∀ o b, view o = some b → K.view (some (valueOf o)) = some (abs b)
  filled : ∀ o b, view o = some b → o.Filled → K.wrap (abs b) = some (valueOf o)

theorem lists_store : Stores lists Object.list? id [] where
  absent := rfl
  empty := rfl
  wrong o h := by cases o <;> first | rfl | cases h
  present o b h := by
    cases o <;> cases h
    rfl
  filled o b h hf := by
    cases o <;> cases h
    rcases hf with hf | hf
    · exact if_neg hf
    · cases hf

theorem members_empty : members .empty = ∅ := by
  ext m
  simp [mem_members]

theorem members_ne_empty {s : Dict UInt8} (h : s.size ≠ 0) : members s ≠ ∅ := by
  intro h0
  rw [← card_members, h0] at h
  exact h rfl

theorem sets_store : Stores sets Object.set? members .empty where
  absent := by rw [members_empty]; rfl
  empty := by rw [members_empty]; rfl
  wrong o h := by cases o <;> first | rfl | cases h
  present o b h := by
    cases o <;> cases h
    rfl
  filled o b h hf := by
    cases o <;> cases h
    rcases hf with hf | hf
    · exact if_neg (members_ne_empty hf)
    · cases hf

theorem hashes_store : Stores hashes Object.hash? Dict.find .empty where
  absent := by
    have hempty : (Dict.empty : Dict Bytes).find = fun _ => none := funext fun k => Dict.find_empty k
    rw [hempty]
    rfl
  empty := if_pos fun k => Dict.find_empty k
  wrong o h := by cases o <;> first | rfl | cases h
  present o b h := by
    cases o <;> cases h
    rfl
  filled o b h hf := by
    cases o <;> cases h
    rcases hf with hf | hf
    · exact if_neg fun hall => hf ((Dict.size_eq_zero _).2 hall)
    · cases hf

section Effects

variable {α β : Type} {K : Container α} {view : Object → Option β} {abs : β → α} {fresh : β}
  {f : α → α → Bytes → Prop} {env : Env} {argv : List Bytes} {db : Keyspace}

/-- A value of another type is left alone. -/
theorem Stores.refuses (S : Stores K view abs fresh)
    (h : found view (db.peek env.now (arg argv 1)) = .wrongType) :
    Performs (K.effect f) env argv db (.clean (db.lookup env.now (arg argv 1)).1 errWrongType) := by
  obtain ⟨o, ho, hv⟩ := found_wrongType view h
  refine performs_keeping leaves_lookup ?_
  rw [ho, Option.map_some, S.wrong o hv]
  exact ⟨rfl, rfl⟩

/-- What a command that finds no key may leave. -/
theorem Stores.fills (S : Stores K view abs fresh) (h : found view (db.peek env.now (arg argv 1)) = .absent)
    {r : Result} {x : Option Object} {a' : α} (hl : Leaves env.now (arg argv 1) db r.db x)
    (hx : x.map valueOf = K.wrap a') (hf : f (abs fresh) a' r.reply) :
    Performs (K.effect f) env argv db r := by
  refine performs_keeping hl ?_
  rw [(found_absent view).1 h, Option.map_none, S.absent]
  exact ⟨a', hf, hx⟩

/-- What a command that finds a container may leave. -/
theorem Stores.changes (S : Stores K view abs fresh) {b : β}
    (h : found view (db.peek env.now (arg argv 1)) = .present b) {r : Result} {x : Option Object} {a' : α}
    (hl : Leaves env.now (arg argv 1) db r.db x) (hx : x.map valueOf = K.wrap a')
    (hf : f (abs b) a' r.reply) :
    Performs (K.effect f) env argv db r := by
  obtain ⟨o, ho, hv⟩ := (found_present view).1 h
  refine performs_keeping hl ?_
  rw [ho, Option.map_some, S.present o b hv]
  exact ⟨a', hf, hx⟩

/-- A container that is left alone. -/
theorem Stores.keeps (S : Stores K view abs fresh) (hdb : db.All Object.Filled) {b : β}
    (h : found view (db.peek env.now (arg argv 1)) = .present b) {reply : Bytes}
    (hf : f (abs b) (abs b) reply) :
    Performs (K.effect f) env argv db (.clean (db.lookup env.now (arg argv 1)).1 reply) := by
  obtain ⟨o, ho, hv⟩ := (found_present view).1 h
  refine S.changes h leaves_lookup ?_ hf
  rw [ho, Option.map_some, S.filled o b hv (hdb _ o (find_of_peek _ _ _ _ ho))]

/-- Nothing is left where nothing was. -/
theorem Stores.finds_nothing (S : Stores K view abs fresh)
    (h : found view (db.peek env.now (arg argv 1)) = .absent) {reply : Bytes}
    (hf : f (abs fresh) (abs fresh) reply) :
    Performs (K.effect f) env argv db (.clean (db.lookup env.now (arg argv 1)).1 reply) := by
  have hl : Leaves env.now (arg argv 1) db _ _ := leaves_lookup
  rw [(found_absent view).1 h] at hl
  exact S.fills h hl S.empty.symm hf

end Effects

section Lists

variable {env : Env} {argv : List Bytes} {db : Keyspace}

theorem pushed (head : Bool) (xs l : List Bytes) :
    xs.foldl (fun l x => if head then x :: l else l ++ [x]) l =
      if head then xs.reverse ++ l else l ++ xs := by
  induction xs generalizing l with
  | nil => cases head <;> simp
  | cons x xs ih =>
    rw [List.foldl_cons, ih]
    cases head <;> simp

theorem wrap_list {l : List Bytes} (h : l ≠ []) : lists.wrap l = some (.list l) := if_neg h

theorem push_performs (head : Bool) (hlen : 3 ≤ argv.length) :
    Performs (Abstract.push head argv) env argv db (Cmd.push head env argv db) := by
  have hne : argv.drop 2 ≠ [] := List.ne_nil_of_length_pos (by simp; omega)
  have hpush : ∀ l, (if head then (argv.drop 2).reverse ++ l else l ++ argv.drop 2) ≠ [] := fun l => by
    cases head <;> simp [hne]
  unfold Cmd.push Cmd.makeList
  rw [getOrMake_eq]
  cases hf : found Object.list? (db.peek env.now (arg argv 1)) with
  | wrongType => exact lists_store.refuses hf
  | absent =>
    have hset := leaves_set ((found_absent _).1 hf) (.list [])
    dsimp only
    rw [pushed]
    exact lists_store.fills hf (hset.write _) (wrap_list (hpush [])).symm ⟨rfl, rfl⟩
  | present l =>
    have hl : Leaves env.now (arg argv 1) db _ _ := leaves_lookup
    obtain ⟨o, ho, -⟩ := (found_present _).1 hf
    rw [ho] at hl
    dsimp only
    rw [pushed]
    exact lists_store.changes hf (hl.write _) (wrap_list (hpush l)).symm ⟨rfl, rfl⟩

theorem llen_performs (hdb : db.All Object.Filled) :
    Performs Abstract.llen env argv db (Cmd.llen env argv db) := by
  unfold Cmd.llen Cmd.getList
  rw [getAs_eq]
  cases hf : found Object.list? (db.peek env.now (arg argv 1)) with
  | wrongType => exact lists_store.refuses hf
  | absent => exact lists_store.finds_nothing hf ⟨rfl, rfl⟩
  | present l => exact lists_store.keeps hdb hf ⟨rfl, rfl⟩

/-- The clamped part of a list is the slice that was asked for. -/
theorem lrange_reply (l : List Bytes) (start stop : ℤ) {a b : ℤ}
    (h : clampRange l.length start stop = (a, b)) :
    (if a > b ∨ l.length = 0 then Reply.arrayHeader 0
      else Reply.arrayHeader (b - a + 1) ++ ((l.drop a.toNat).take (b - a + 1).toNat).flatMap Reply.bulk) =
      arrayOf (slice l start stop) := by
  have hslice := slice_clamp l start stop
  rw [h] at hslice
  dsimp only at hslice
  have hbounds : 0 ≤ a ∧ b < l.length := by
    rw [Prod.ext_iff] at h
    obtain ⟨rfl, rfl⟩ := h
    simp only [clampRange]
    omega
  rw [hslice]
  split_ifs with hno
  · rfl
  · have hcount : (((l.drop a.toNat).take (b - a + 1).toNat).length : ℤ) = b - a + 1 := by
      rw [List.length_take, List.length_drop]
      omega
    rw [arrayOf, hcount]

theorem lrange_performs (hdb : db.All Object.Filled) :
    Performs (Abstract.lrange argv) env argv db (Cmd.lrange env argv db) := by
  unfold Cmd.lrange Cmd.getList Abstract.lrange
  rw [getAs_eq]
  cases hf : found Object.list? (db.peek env.now (arg argv 1)) with
  | wrongType => exact lists_store.refuses hf
  | absent =>
    cases hstart : parseInt (arg argv 2) with
    | none => exact lists_store.finds_nothing hf ⟨rfl, rfl⟩
    | some start =>
      cases hstop : parseInt (arg argv 3) with
      | none => exact lists_store.finds_nothing hf ⟨rfl, rfl⟩
      | some stop => exact lists_store.finds_nothing hf ⟨rfl, rfl⟩
  | present l =>
    cases hstart : parseInt (arg argv 2) with
    | none => exact lists_store.keeps hdb hf ⟨rfl, rfl⟩
    | some start =>
      cases hstop : parseInt (arg argv 3) with
      | none => exact lists_store.keeps hdb hf ⟨rfl, rfl⟩
      | some stop =>
        dsimp only
        generalize hab : clampRange l.length start stop = ab
        obtain ⟨a, b⟩ := ab
        have hreply := lrange_reply l start stop hab
        dsimp only
        split_ifs with hno
        · rw [if_pos hno] at hreply
          exact lists_store.keeps hdb hf ⟨rfl, hreply⟩
        · rw [if_neg hno] at hreply
          exact lists_store.keeps hdb hf ⟨rfl, hreply⟩

theorem listIndex_at (l : List Bytes) (i : ℤ) (n : ℕ) : Cmd.listIndex l i = some n ↔ At l i n := by
  unfold Cmd.listIndex At index
  dsimp only
  split_ifs <;> simp only [Option.some.injEq, false_iff] <;> omega

theorem listIndex_none {l : List Bytes} {i : ℤ} (h : Cmd.listIndex l i = none) : ¬∃ n, At l i n := by
  rintro ⟨n, hn⟩
  rw [(listIndex_at l i n).2 hn] at h
  cases h

theorem lindex_performs (hdb : db.All Object.Filled) :
    Performs (Abstract.lindex argv) env argv db (Cmd.lindex env argv db) := by
  unfold Cmd.lindex Cmd.getList Abstract.lindex
  rw [getAs_eq]
  cases hf : found Object.list? (db.peek env.now (arg argv 1)) with
  | wrongType => exact lists_store.refuses hf
  | absent =>
    cases hi : parseInt (arg argv 2) with
    | none => exact lists_store.finds_nothing hf ⟨rfl, rfl⟩
    | some i =>
      refine lists_store.finds_nothing hf ⟨rfl, .inr ⟨?_, rfl⟩⟩
      rintro ⟨n, hn⟩
      exact absurd hn.1 (Nat.not_lt_zero n)
  | present l =>
    cases hi : parseInt (arg argv 2) with
    | none => exact lists_store.keeps hdb hf ⟨rfl, rfl⟩
    | some i =>
      refine lists_store.keeps hdb hf ⟨rfl, ?_⟩
      cases hn : Cmd.listIndex l i with
      | none => exact .inr ⟨listIndex_none hn, rfl⟩
      | some n =>
        have hat := (listIndex_at l i n).1 hn
        exact .inl ⟨n, l.getD n [], hat, getElem?_getD hat.1 [], rfl⟩

/-- The value that is there, and that it is not an empty list. -/
theorem list_there (hdb : db.All Object.Filled) {l : List Bytes}
    (hf : found Object.list? (db.peek env.now (arg argv 1)) = .present l) :
    l ≠ [] ∧ ∃ o, Leaves env.now (arg argv 1) db (db.lookup env.now (arg argv 1)).1 (some o) := by
  obtain ⟨o, ho, hv⟩ := (found_present _).1 hf
  have hwrap := lists_store.filled o l hv (hdb _ o (find_of_peek _ _ _ _ ho))
  refine ⟨?_, o, ho ▸ leaves_lookup⟩
  rintro rfl
  cases hwrap

theorem lset_performs (hdb : db.All Object.Filled) :
    Performs (Abstract.lset argv) env argv db (Cmd.lset env argv db) := by
  unfold Cmd.lset Cmd.getList Abstract.lset
  rw [getAs_eq]
  cases hf : found Object.list? (db.peek env.now (arg argv 1)) with
  | wrongType => exact lists_store.refuses hf
  | absent =>
    refine lists_store.finds_nothing hf ?_
    dsimp only [id]
    rw [if_pos rfl]
    exact ⟨rfl, rfl⟩
  | present l =>
    obtain ⟨hne, o, hl⟩ := list_there hdb hf
    dsimp only
    cases hi : parseInt (arg argv 2) with
    | none => exact lists_store.keeps hdb hf (by dsimp only [id]; rw [if_neg hne]; exact ⟨rfl, rfl⟩)
    | some i =>
      dsimp only
      cases hn : Cmd.listIndex l i with
      | none =>
        refine lists_store.keeps hdb hf ?_
        dsimp only [id]
        rw [if_neg hne]
        exact .inr ⟨listIndex_none hn, rfl, rfl⟩
      | some n =>
        have hset : l.set n (arg argv 3) ≠ [] := by simpa using hne
        have hwrite := hl.write (.list (l.set n (arg argv 3)))
        refine lists_store.changes hf hwrite (wrap_list hset).symm ?_
        dsimp only [id]
        rw [if_neg hne]
        exact .inl ⟨n, (listIndex_at l i n).1 hn, rfl, rfl⟩

/-- What the rounds of a pop take, and what they leave. -/
theorem popLoop_takes (head : Bool) (l : List Bytes) {n : ℕ} (h : n ≤ l.length) :
    (Cmd.popLoop head l n).2.length = n ∧
      l = if head then (Cmd.popLoop head l n).2 ++ (Cmd.popLoop head l n).1
        else (Cmd.popLoop head l n).1 ++ (Cmd.popLoop head l n).2.reverse := by
  cases head with
  | true => exact ⟨by simp [Cmd.popLoop, h], by simp [Cmd.popLoop]⟩
  | false => exact ⟨by simp [Cmd.popLoop]; omega, by simp [Cmd.popLoop]⟩

theorem count_one {count : ℤ} (hc : Cmd.popCount argv = some count) (h : argv.length ≠ 3) : count = 1 := by
  unfold Cmd.popCount at hc
  rw [if_neg h] at hc
  exact (Option.some.inj hc).symm

/-- The pieces of the reply of a pop. -/
theorem popReply_of {xs : List Bytes} {n : ℕ} (hn : n = xs.length) (hone : argv.length ≠ 3 → n = 1) :
    (if argv.length = 3 then Reply.arrayHeader n else []) ++ xs.flatMap Reply.bulk ++
      (if ¬argv.length = 3 ∧ n = 0 then Reply.nullBulk else []) = popReply argv xs := by
  subst hn
  unfold popReply
  by_cases h : argv.length = 3
  · rw [if_pos h, if_pos h, if_neg (fun hno => hno.1 h), List.append_nil]
    rfl
  · obtain ⟨x, rfl⟩ := List.length_eq_one_iff.1 (hone h)
    rw [if_neg h, if_neg h, if_neg (by simp)]
    simp

theorem pop_performs (head : Bool) (hdb : db.All Object.Filled) :
    Performs (Abstract.pop head argv) env argv db (Cmd.pop head env argv db) := by
  unfold Cmd.pop Cmd.getList Abstract.pop
  rw [getAs_eq]
  cases hf : found Object.list? (db.peek env.now (arg argv 1)) with
  | wrongType => exact lists_store.refuses hf
  | absent =>
    cases hc : Cmd.popCount argv with
    | none => exact lists_store.finds_nothing hf ⟨rfl, rfl⟩
    | some count => exact lists_store.finds_nothing hf (by dsimp only [id]; rw [if_pos rfl]; exact ⟨rfl, rfl⟩)
  | present l =>
    cases hc : Cmd.popCount argv with
    | none => exact lists_store.keeps hdb hf ⟨rfl, rfl⟩
    | some count =>
      obtain ⟨hne, o, hl⟩ := list_there hdb hf
      obtain ⟨hlen, heq⟩ := popLoop_takes head l (Nat.min_le_right count.toNat l.length)
      dsimp only
      generalize hp : Cmd.popLoop head l (min count.toNat l.length) = p at hlen heq
      obtain ⟨l', xs⟩ := p
      dsimp only at hlen heq ⊢
      have hone : argv.length ≠ 3 → min count.toNat l.length = 1 := fun h => by
        have hpos := List.length_pos_iff.2 hne
        rw [count_one hc h]
        omega
      have hleft : Leaves env.now (arg argv 1) db
          (if l' = [] then
            ((db.lookup env.now (arg argv 1)).1.write (arg argv 1) (.list l')).erase (arg argv 1)
            else (db.lookup env.now (arg argv 1)).1.write (arg argv 1) (.list l'))
          (if l' = [] then none else some (.list l')) := by
        split_ifs
        · exact (hl.write _).erase
        · exact hl.write _
      have hwrap : (if l' = [] then none else some (Object.list l')).map valueOf = lists.wrap l' := by
        unfold lists
        dsimp only
        split_ifs <;> rfl
      refine lists_store.changes hf hleft hwrap ?_
      dsimp only [id]
      rw [if_neg hne]
      exact ⟨xs, hlen, heq, popReply_of hlen.symm hone⟩

end Lists

/-! Loops over the keys of a table. -/

section Loops

variable {σ β : Type} {step : σ → β → σ × Bool}

theorem card_filter_insert (p : Bytes → Prop) [DecidablePred p] (k : Bytes) (S : Finset Bytes) :
    ((insert k S).filter p).card = (S.filter fun x => p x ∧ x ≠ k).card + if p k then 1 else 0 := by
  rw [Finset.filter_insert]
  split_ifs with hk
  · have hins : insert k (S.filter p) = insert k (S.filter fun x => p x ∧ x ≠ k) := by
      ext x
      by_cases hx : x = k <;> simp [hx]
    rw [hins, Finset.card_insert_of_notMem (by simp)]
  · have hsame : S.filter p = S.filter fun x => p x ∧ x ≠ k :=
      Finset.filter_congr fun x _ => ⟨fun hx => ⟨hx, fun he => hk (he ▸ hx)⟩, And.left⟩
    rw [hsame, Nat.add_zero]

/-- A loop that counts the keys with a property, and takes it from each key that it passes. -/
theorem countLoop_card (key : β → Bytes) (p : σ → Bytes → Prop) [∀ s, DecidablePred (p s)]
    (hcount : ∀ s x, (step s x).2 = decide (p s (key x)))
    (hstep : ∀ s x k, p (step s x).1 k ↔ p s k ∧ k ≠ key x) (s : σ) (xs : List β) :
    (countLoop step s xs).2 = ((xs.map key).toFinset.filter (p s)).card := by
  induction xs generalizing s with
  | nil => rfl
  | cons x xs ih =>
    rw [countLoop_cons, ih, List.map_cons, List.toFinset_cons, card_filter_insert, hcount]
    simp only [hstep, decide_eq_true_eq]

variable {α : Type} [Inhabited α]

theorem countLoop_erase (d : Dict α) (ks : List Bytes) :
    (countLoop Dict.eraseKey d ks).2 = (ks.toFinset.filter fun k => d.find k ≠ none).card := by
  have h := countLoop_card (σ := Dict α) (β := Bytes) id (fun d k => d.find k ≠ none)
    (fun d k => by rw [Dict.eraseKey_snd, id]; cases d.find k <;> rfl)
    (fun d k k' => by
      rw [Dict.eraseKey_fst, Dict.find_erase]
      by_cases hk : k' = k <;> simp [hk]) d ks
  rw [List.map_id] at h
  exact h

theorem find_countLoop_erase (d : Dict α) (ks : List Bytes) (k : Bytes) :
    (countLoop Dict.eraseKey d ks).1.find k = if k ∈ ks then none else d.find k := by
  induction ks generalizing d with
  | nil => simp
  | cons k' ks ih =>
    rw [countLoop_cons, ih, Dict.eraseKey_fst, Dict.find_erase]
    by_cases h : k = k' <;> simp [h]

theorem countLoop_assign (f : β → Bytes) (g : β → α) (d : Dict α) (xs : List β) :
    (countLoop (fun d x => d.insertOrAssign (f x) (g x)) d xs).2 =
      ((xs.map f).toFinset.filter fun k => d.find k = none).card := by
  refine countLoop_card f (fun d k => d.find k = none) (fun d x => ?_) (fun d x k => ?_) d xs
  · rw [Dict.insertOrAssign_snd]
    cases d.find (f x) <;> rfl
  · rw [Dict.insertOrAssign_fst, Dict.find_insert]
    by_cases hk : k = f x <;> simp [hk]

theorem find_countLoop_assign (f : β → Bytes) (g : β → α) (d : Dict α) (xs : List β) :
    (countLoop (fun d x => d.insertOrAssign (f x) (g x)) d xs).1.find =
      xs.foldl (fun h x => Function.update h (f x) (some (g x))) d.find := by
  induction xs generalizing d with
  | nil => rfl
  | cons x xs ih =>
    rw [countLoop_cons, ih, List.foldl_cons]
    congr 1
    funext k
    rw [Dict.insertOrAssign_fst, Dict.find_insert, Function.update_apply]

end Loops

section Sets

variable {env : Env} {argv : List Bytes} {db : Keyspace}

theorem wrap_set {S : Finset Bytes} (h : S ≠ ∅) : sets.wrap S = some (.set S) := if_neg h

theorem sadd_members (s : Dict UInt8) (ms : List Bytes) :
    members (countLoop (fun s m => s.insertOrAssign m 1) s ms).1 = members s ∪ ms.toFinset := by
  induction ms generalizing s with
  | nil => simp
  | cons m ms ih =>
    rw [countLoop_cons, ih]
    ext x
    by_cases hx : x = m <;> simp [mem_members, hx]

theorem sadd_added (s : Dict UInt8) (ms : List Bytes) :
    (countLoop (fun s m => s.insertOrAssign m 1) s ms).2 = (ms.toFinset \ members s).card := by
  have h := countLoop_assign id (fun _ => (1 : UInt8)) s ms
  rw [List.map_id] at h
  refine h.trans (congrArg Finset.card ?_)
  ext x
  cases hx : s.find x <;> simp [mem_members, hx]

theorem sadd_performs (hlen : 3 ≤ argv.length) :
    Performs (Abstract.sadd argv) env argv db (Cmd.sadd env argv db) := by
  have hne : argv.drop 2 ≠ [] := List.ne_nil_of_length_pos (by simp; omega)
  have hsome : ∀ s : Dict UInt8, (members s ∪ (argv.drop 2).toFinset) ≠ ∅ := fun s h0 => by
    rw [Finset.union_eq_empty, List.toFinset_eq_empty_iff] at h0
    exact hne h0.2
  unfold Cmd.sadd Cmd.makeSet
  rw [getOrMake_eq]
  cases hf : found Object.set? (db.peek env.now (arg argv 1)) with
  | wrongType => exact sets_store.refuses hf
  | absent =>
    have hset := (leaves_set ((found_absent _).1 hf) (.set .empty)).write
      (.set (countLoop (fun s m => s.insertOrAssign m 1) Dict.empty (argv.drop 2)).1)
    refine sets_store.fills hf hset ?_ ⟨rfl, ?_⟩
    · rw [wrap_set (hsome .empty), ← sadd_members]
      rfl
    · exact congrArg (fun n : ℕ => Reply.integer n) (sadd_added .empty (argv.drop 2))
  | present s =>
    obtain ⟨o, ho, -⟩ := (found_present _).1 hf
    have hl : Leaves env.now (arg argv 1) db (db.lookup env.now (arg argv 1)).1 (some o) := ho ▸ leaves_lookup
    have hset := hl.write (.set (countLoop (fun s m => s.insertOrAssign m 1) s (argv.drop 2)).1)
    refine sets_store.changes hf hset ?_ ⟨rfl, ?_⟩
    · rw [wrap_set (hsome s), ← sadd_members]
      rfl
    · exact congrArg (fun n : ℕ => Reply.integer n) (sadd_added s (argv.drop 2))

theorem srem_members (s : Dict UInt8) (ms : List Bytes) :
    members (countLoop Dict.eraseKey s ms).1 = members s \ ms.toFinset := by
  ext x
  rw [mem_members, find_countLoop_erase, Finset.mem_sdiff, mem_members, List.mem_toFinset]
  by_cases hx : x ∈ ms <;> simp [hx]

theorem srem_removed (s : Dict UInt8) (ms : List Bytes) :
    (countLoop Dict.eraseKey s ms).2 = (ms.toFinset ∩ members s).card := by
  rw [countLoop_erase]
  congr 1
  ext x
  cases hx : s.find x <;> simp [mem_members, hx]

/-- A set that is written back, or erased where nothing is left of it. -/
theorem set_left {o : Object}
    (hl : Leaves env.now (arg argv 1) db (db.lookup env.now (arg argv 1)).1 (some o))
    (s : Dict UInt8) :
    Leaves env.now (arg argv 1) db
      (if s.size = 0 then ((db.lookup env.now (arg argv 1)).1.write (arg argv 1) (.set s)).erase (arg argv 1)
        else (db.lookup env.now (arg argv 1)).1.write (arg argv 1) (.set s))
      (if s.size = 0 then none else some (.set s)) ∧
    (if s.size = 0 then none else some (Object.set s)).map valueOf = sets.wrap (members s) := by
  unfold sets
  dsimp only
  split_ifs with h0 hm hm
  · exact ⟨(hl.write _).erase, rfl⟩
  · exact absurd (Finset.card_eq_zero.1 ((card_members s).trans h0)) hm
  · exact absurd hm (members_ne_empty h0)
  · exact ⟨hl.write _, rfl⟩

theorem set_there {s : Dict UInt8} (hf : found Object.set? (db.peek env.now (arg argv 1)) = .present s) :
    ∃ o, Leaves env.now (arg argv 1) db (db.lookup env.now (arg argv 1)).1 (some o) := by
  obtain ⟨o, ho, -⟩ := (found_present _).1 hf
  exact ⟨o, ho ▸ leaves_lookup⟩

theorem srem_performs : Performs (Abstract.srem argv) env argv db (Cmd.srem env argv db) := by
  unfold Cmd.srem Cmd.getSet
  rw [getAs_eq]
  cases hf : found Object.set? (db.peek env.now (arg argv 1)) with
  | wrongType => exact sets_store.refuses hf
  | absent =>
    refine sets_store.finds_nothing hf ?_
    rw [members_empty]
    exact ⟨by simp, by simp⟩
  | present s =>
    obtain ⟨o, hl⟩ := set_there hf
    obtain ⟨hleft, hwrap⟩ := set_left hl (countLoop Dict.eraseKey s (argv.drop 2)).1
    refine sets_store.changes hf hleft hwrap ⟨srem_members s _, ?_⟩
    exact congrArg (fun n : ℕ => Reply.integer n) (srem_removed s (argv.drop 2))

theorem sismember_performs (hdb : db.All Object.Filled) :
    Performs (Abstract.sismember argv) env argv db (Cmd.sismember env argv db) := by
  unfold Cmd.sismember Cmd.getSet
  rw [getAs_eq]
  cases hf : found Object.set? (db.peek env.now (arg argv 1)) with
  | wrongType => exact sets_store.refuses hf
  | absent =>
    refine sets_store.finds_nothing hf ⟨rfl, ?_⟩
    rw [members_empty]
    rfl
  | present s => exact sets_store.keeps hdb hf ⟨rfl, by simp only [mem_members]⟩

theorem scard_performs (hdb : db.All Object.Filled) :
    Performs Abstract.scard env argv db (Cmd.scard env argv db) := by
  unfold Cmd.scard Cmd.getSet
  rw [getAs_eq]
  cases hf : found Object.set? (db.peek env.now (arg argv 1)) with
  | wrongType => exact sets_store.refuses hf
  | absent =>
    refine sets_store.finds_nothing hf ⟨rfl, ?_⟩
    rw [members_empty]
    rfl
  | present s =>
    exact sets_store.keeps hdb hf ⟨rfl, congrArg (fun n : ℕ => Reply.integer n) (card_members s).symm⟩

theorem smembers_performs (hdb : db.All Object.Filled) :
    Performs Abstract.smembers env argv db (Cmd.smembers env argv db) := by
  unfold Cmd.smembers Cmd.getSet
  rw [getAs_eq]
  cases hf : found Object.set? (db.peek env.now (arg argv 1)) with
  | wrongType => exact sets_store.refuses hf
  | absent => exact sets_store.finds_nothing hf ⟨rfl, [], List.nodup_nil, by rw [members_empty]; rfl, rfl⟩
  | present s =>
    refine sets_store.keeps hdb hf ⟨rfl, s.forEach.map Prod.fst, Dict.forEach_nodup s, rfl, ?_⟩
    rw [arrayOf, List.length_map, Dict.forEach_length, List.flatMap_map]

theorem spop_performs (hdb : db.All Object.Filled) :
    Performs (Abstract.spop argv) env argv db (Cmd.spop env argv db) := by
  unfold Cmd.spop Cmd.getSet Abstract.spop
  rw [getAs_eq]
  cases hf : found Object.set? (db.peek env.now (arg argv 1)) with
  | wrongType => exact sets_store.refuses hf
  | absent =>
    cases hc : Cmd.popCount argv with
    | none => exact sets_store.finds_nothing hf ⟨rfl, rfl⟩
    | some count =>
      refine sets_store.finds_nothing hf ⟨[], List.nodup_nil, by simp, ?_, by simp, ?_⟩
      · rw [members_empty]
        simp
      · unfold popReply
        split_ifs <;> rfl
  | present s =>
    cases hc : Cmd.popCount argv with
    | none => exact sets_store.keeps hdb hf ⟨rfl, rfl⟩
    | some count =>
      obtain ⟨o, hl⟩ := set_there hf
      dsimp only
      have hnodup : (Cmd.picked s count.toNat).Nodup := (Dict.forEach_nodup s).sublist (List.take_sublist _ _)
      have hlen : (Cmd.picked s count.toNat).length = min count.toNat (members s).card := by
        rw [Cmd.picked, List.length_take, List.length_map, Dict.forEach_length, card_members]
      have hsub : (Cmd.picked s count.toNat).toFinset ⊆ members s := fun m hm =>
        mem_members.2 (mem_picked (List.mem_toFinset.1 hm))
      have hleft : members ((Cmd.picked s count.toNat).foldl Dict.erase s) =
          members s \ (Cmd.picked s count.toNat).toFinset := by
        ext x
        rw [mem_members, isSome_foldl_erase, Finset.mem_sdiff, mem_members, List.mem_toFinset]
        simp
      obtain ⟨hwrite, hwrap⟩ := set_left hl ((Cmd.picked s count.toNat).foldl Dict.erase s)
      refine sets_store.changes hf hwrite hwrap ⟨_, hnodup, hsub, hlen, hleft, ?_⟩
      unfold popReply
      rfl

end Sets

section Hashes

variable {env : Env} {argv : List Bytes} {db : Keyspace}

theorem find_empty_hash : (Dict.empty : Dict Bytes).find = fun _ => none := funext fun k => Dict.find_empty k

theorem entries_forEach {α : Type} [Inhabited α] (h : Dict α) : Entries h.find h.forEach :=
  ⟨Dict.forEach_nodup h, fun f v => Dict.mem_forEach h f v⟩

theorem hash_there {h : Dict Bytes} (hf : found Object.hash? (db.peek env.now (arg argv 1)) = .present h) :
    ∃ o, Leaves env.now (arg argv 1) db (db.lookup env.now (arg argv 1)).1 (some o) := by
  obtain ⟨o, ho, -⟩ := (found_present _).1 hf
  exact ⟨o, ho ▸ leaves_lookup⟩

theorem wrap_hash {h : Bytes → Option Bytes} (hne : ¬∀ f, h f = none) :
    hashes.wrap h = some (.hash h) :=
  if_neg hne

/-- A hash that is written back, or erased where nothing is left of it. -/
theorem hash_left {o : Object}
    (hl : Leaves env.now (arg argv 1) db (db.lookup env.now (arg argv 1)).1 (some o))
    (h : Dict Bytes) :
    Leaves env.now (arg argv 1) db
      (if h.size = 0 then ((db.lookup env.now (arg argv 1)).1.write (arg argv 1) (.hash h)).erase (arg argv 1)
        else (db.lookup env.now (arg argv 1)).1.write (arg argv 1) (.hash h))
      (if h.size = 0 then none else some (.hash h)) ∧
    (if h.size = 0 then none else some (Object.hash h)).map valueOf = hashes.wrap h.find := by
  unfold hashes
  dsimp only
  split_ifs with h0 hm hm
  · exact ⟨(hl.write _).erase, rfl⟩
  · exact absurd ((Dict.size_eq_zero h).1 h0) hm
  · exact absurd ((Dict.size_eq_zero h).2 hm) h0
  · exact ⟨hl.write _, rfl⟩

theorem assign_ne {h : Bytes → Option Bytes} {ps : List (Bytes × Bytes)} (hps : ps ≠ []) :
    ¬∀ f, assign h ps f = none := by
  intro hall
  obtain ⟨ps', p, rfl⟩ := List.eq_nil_or_concat ps |>.resolve_left hps
  have := hall p.1
  simp [assign] at this

theorem pairs_ne_nil {xs : List Bytes} (h : 2 ≤ xs.length) : pairs xs ≠ [] := by
  rcases xs with _ | ⟨a, _ | ⟨b, xs⟩⟩
  · cases h
  · simp at h
  · simp [pairs]

/-- What `HSET` makes of a hash. -/
theorem hset_filled (h : Dict Bytes) {ps : List (Bytes × Bytes)} (hps : ps ≠ []) :
    (countLoop (fun h p => h.insertOrAssign p.1 p.2) h ps).1.find = assign h.find ps ∧
      some (Value.hash (countLoop (fun h p => h.insertOrAssign p.1 p.2) h ps).1.find) =
        hashes.wrap (assign h.find ps) ∧
      (countLoop (fun h p => h.insertOrAssign p.1 p.2) h ps).2 =
        ((ps.map Prod.fst).toFinset.filter fun f => h.find f = none).card := by
  have hfind := find_countLoop_assign Prod.fst Prod.snd h ps
  refine ⟨hfind, ?_, countLoop_assign Prod.fst Prod.snd h ps⟩
  rw [wrap_hash (assign_ne hps), hfind]
  rfl

theorem hset_performs (hlen : 4 ≤ argv.length) :
    Performs (Abstract.hset argv) env argv db (Cmd.hset env argv db) := by
  have hps : pairs (argv.drop 2) ≠ [] := pairs_ne_nil (by simp; omega)
  unfold Cmd.hset Cmd.makeHash Abstract.hset
  by_cases hodd : argv.length % 2 ≠ 0
  · rw [if_pos hodd, if_pos hodd]
    exact performs_refused
  rw [if_neg hodd, if_neg hodd, getOrMake_eq]
  cases hf : found Object.hash? (db.peek env.now (arg argv 1)) with
  | wrongType => exact hashes_store.refuses hf
  | absent =>
    obtain ⟨hfind, hwrap, hcount⟩ := hset_filled .empty hps
    have hset := (leaves_set ((found_absent _).1 hf) (.hash .empty)).write
      (.hash (countLoop (fun h p => h.insertOrAssign p.1 p.2) Dict.empty (pairs (argv.drop 2))).1)
    refine hashes_store.fills hf hset hwrap ⟨rfl, ?_⟩
    rw [← hcount]
    rfl
  | present h =>
    obtain ⟨o, hl⟩ := hash_there hf
    obtain ⟨hfind, hwrap, hcount⟩ := hset_filled h hps
    have hset := hl.write (.hash (countLoop (fun h p => h.insertOrAssign p.1 p.2) h (pairs (argv.drop 2))).1)
    refine hashes_store.changes hf hset hwrap ⟨rfl, ?_⟩
    rw [← hcount]
    rfl

theorem hdel_performs : Performs (Abstract.hdel argv) env argv db (Cmd.hdel env argv db) := by
  unfold Cmd.hdel Cmd.getHash
  rw [getAs_eq]
  cases hf : found Object.hash? (db.peek env.now (arg argv 1)) with
  | wrongType => exact hashes_store.refuses hf
  | absent =>
    refine hashes_store.finds_nothing hf ?_
    rw [find_empty_hash]
    exact ⟨by simp, by simp⟩
  | present h =>
    obtain ⟨o, hl⟩ := hash_there hf
    obtain ⟨hleft, hwrap⟩ := hash_left hl (countLoop Dict.eraseKey h (argv.drop 2)).1
    refine hashes_store.changes hf hleft hwrap ⟨funext fun f => find_countLoop_erase h _ f, ?_⟩
    exact congrArg (fun n : ℕ => Reply.integer n) (countLoop_erase h (argv.drop 2))

theorem hget_performs (hdb : db.All Object.Filled) :
    Performs (Abstract.hget argv) env argv db (Cmd.hget env argv db) := by
  unfold Cmd.hget Cmd.getHash
  rw [getAs_eq]
  cases hf : found Object.hash? (db.peek env.now (arg argv 1)) with
  | wrongType => exact hashes_store.refuses hf
  | absent => exact hashes_store.finds_nothing hf ⟨rfl, by rw [find_empty_hash]; rfl⟩
  | present h => exact hashes_store.keeps hdb hf ⟨rfl, rfl⟩

theorem hexists_performs (hdb : db.All Object.Filled) :
    Performs (Abstract.hexists argv) env argv db (Cmd.hexists env argv db) := by
  unfold Cmd.hexists Cmd.getHash
  rw [getAs_eq]
  cases hf : found Object.hash? (db.peek env.now (arg argv 1)) with
  | wrongType => exact hashes_store.refuses hf
  | absent => exact hashes_store.finds_nothing hf ⟨rfl, by rw [find_empty_hash]; rfl⟩
  | present h => exact hashes_store.keeps hdb hf ⟨rfl, by simp only [Option.isSome_iff_ne_none]⟩

theorem hlen_performs (hdb : db.All Object.Filled) :
    Performs Abstract.hlen env argv db (Cmd.hlen env argv db) := by
  unfold Cmd.hlen Cmd.getHash
  rw [getAs_eq]
  cases hf : found Object.hash? (db.peek env.now (arg argv 1)) with
  | wrongType => exact hashes_store.refuses hf
  | absent => exact hashes_store.finds_nothing hf ⟨rfl, [], ⟨List.nodup_nil, by simp⟩, rfl⟩
  | present h =>
    refine hashes_store.keeps hdb hf ⟨rfl, h.forEach, entries_forEach h, ?_⟩
    exact congrArg (fun n : ℕ => Reply.integer n) (Dict.forEach_length h).symm

theorem hentries_performs (hdb : db.All Object.Filled) {width : ℕ} {entry : Bytes × Bytes → Bytes}
    {parts : Bytes × Bytes → List Bytes} (hwidth : ∀ e, (parts e).length = width)
    (hentry : ∀ e, entry e = (parts e).flatMap Reply.bulk) :
    Performs (Abstract.hentries parts) env argv db (Cmd.hashEntries width entry env argv db) := by
  unfold Cmd.hashEntries Cmd.getHash
  rw [getAs_eq]
  cases hf : found Object.hash? (db.peek env.now (arg argv 1)) with
  | wrongType => exact hashes_store.refuses hf
  | absent => exact hashes_store.finds_nothing hf ⟨rfl, [], ⟨List.nodup_nil, by simp⟩, rfl⟩
  | present h =>
    refine hashes_store.keeps hdb hf ⟨rfl, h.forEach, entries_forEach h, ?_⟩
    have hcount : (h.forEach.flatMap parts).length = h.size * width := by
      rw [List.length_flatMap, ← Dict.forEach_length]
      simp [hwidth]
    have hparts : h.forEach.flatMap entry = h.forEach.flatMap fun e => (parts e).flatMap Reply.bulk :=
      List.flatMap_congr fun e _ => hentry e
    rw [hparts, arrayOf, hcount, List.flatMap_assoc]
    push_cast
    rfl

theorem hmget_performs (hdb : db.All Object.Filled) :
    Performs (Abstract.hmget argv) env argv db (Cmd.hmget env argv db) := by
  unfold Cmd.hmget Cmd.getHash
  rw [getAs_eq]
  cases hf : found Object.hash? (db.peek env.now (arg argv 1)) with
  | wrongType => exact hashes_store.refuses hf
  | absent => exact hashes_store.finds_nothing hf ⟨rfl, by rw [find_empty_hash]⟩
  | present h => exact hashes_store.keeps hdb hf ⟨rfl, rfl⟩

theorem fieldInt_eq (h : Dict Bytes) (field : Bytes) :
    Cmd.fieldInt h field = (h.find field).elim (some 0) parseInt := by
  unfold Cmd.fieldInt
  cases h.find field <;> rfl

/-- What `HINCRBY` stores. -/
theorem hincrby_filled (h : Dict Bytes) (field v : Bytes) :
    (h.insert field v).find = Function.update h.find field (some v) ∧
      some (Value.hash (h.insert field v).find) = hashes.wrap (Function.update h.find field (some v)) := by
  have hfind : (h.insert field v).find = Function.update h.find field (some v) := by
    funext k
    rw [Dict.find_insert, Function.update_apply]
  refine ⟨hfind, ?_⟩
  rw [hfind, wrap_hash fun hall => by simpa using hall field]

theorem hincrby_performs (hdb : db.All Object.Filled) :
    Performs (Abstract.hincrby argv) env argv db (Cmd.hincrby env argv db) := by
  unfold Cmd.hincrby Cmd.makeHash Abstract.hincrby
  cases hd : parseInt (arg argv 3) with
  | none => exact performs_refused
  | some delta =>
    dsimp only
    rw [getOrMake_eq]
    cases hf : found Object.hash? (db.peek env.now (arg argv 1)) with
    | wrongType => exact hashes_store.refuses hf
    | absent =>
      have hzero : Cmd.fieldInt .empty (arg argv 2) = some 0 := by rw [fieldInt_eq, Dict.find_empty]; rfl
      obtain ⟨hfind, hwrap⟩ := hincrby_filled .empty (arg argv 2) (intToString (i64 (0 + delta)))
      have hset := (leaves_set ((found_absent _).1 hf) (.hash .empty)).write
        (.hash (Dict.empty.insert (arg argv 2) (intToString (i64 (0 + delta)))))
      dsimp only
      rw [hzero]
      refine hashes_store.fills hf hset hwrap ?_
      rw [← fieldInt_eq, hzero]
      exact ⟨rfl, rfl⟩
    | present h =>
      obtain ⟨o, hl⟩ := hash_there hf
      dsimp only
      cases hcur : Cmd.fieldInt h (arg argv 2) with
      | none =>
        refine hashes_store.keeps hdb hf ?_
        rw [← fieldInt_eq, hcur]
        exact ⟨rfl, rfl⟩
      | some cur =>
        obtain ⟨hfind, hwrap⟩ := hincrby_filled h (arg argv 2) (intToString (i64 (cur + delta)))
        have hset := hl.write (.hash (h.insert (arg argv 2) (intToString (i64 (cur + delta)))))
        refine hashes_store.changes hf hset hwrap ?_
        rw [← fieldInt_eq, hcur]
        exact ⟨rfl, rfl⟩

end Hashes

end BlazeKV
