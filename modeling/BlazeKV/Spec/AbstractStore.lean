import BlazeKV.Lib.Slices
import BlazeKV.Spec.Commands.Generic
import BlazeKV.Spec.Commands.Hashes
import BlazeKV.Spec.Commands.Sets
import BlazeKV.Spec.Commands.Strings
import BlazeKV.Spec.Commands.ZSets
import BlazeKV.Spec.Registry

/-! What the store is for: strings, sequences, finite sets, finite maps and scored members under keys,
each with a deadline or none. An absent key and an empty container are the same, and the replies do
not say more than that. Where a reply goes through a table, any order will do. -/

namespace BlazeKV.Abstract

open Lib

inductive Value
  | string (s : Bytes)
  | list (l : List Bytes)
  | set (s : Finset Bytes)
  | hash (h : Bytes → Option Bytes)
  /-- Members with scores. They are in order unless a score was not a number, or too many. -/
  | zset (scores : Bytes → Option Double) (ordered : Prop)
  | other (o : Object)

/-- What stands under a key: a value with its deadline, or nothing. -/
abbrev Cell := Option (Value × Option ℕ)

/-- A deadline that has passed leaves nothing. -/
def alive (now : ℕ) (e : Value × Option ℕ) : Bool := e.2.all (now < ·)

/-- A command on one key, by the clock: what it may find, leave and reply. -/
abbrev Effect := ℕ → Cell → Cell → Bytes → Prop

/-- A command on the value, which keeps its deadline. -/
def keeping (f : Option Value → Option Value → Bytes → Prop) : Effect := fun _ e e' reply =>
  ∃ v, f (e.map Prod.fst) v reply ∧ e' = v.map fun v => (v, e.bind Prod.snd)

/-- A command that is refused before it looks. -/
def refused (error : Bytes) : Effect := keeping fun v v' reply => v' = v ∧ reply = error

/-- How the containers of one kind stand under a key. -/
structure Container (α : Type) where
  view : Option Value → Option α
  wrap : α → Option Value

/-- A command on the containers of a kind. -/
def Container.effect {α : Type} (K : Container α) (f : α → α → Bytes → Prop) : Effect :=
  keeping fun v v' reply => match K.view v with
    | none => v' = v ∧ reply = errWrongType
    | some a => ∃ a', f a a' reply ∧ v' = K.wrap a'

/-- A command that only looks. -/
def Container.look {α : Type} (K : Container α) (f : α → Bytes → Prop) : Effect :=
  K.effect fun a a' reply => a' = a ∧ f a reply

/-- A command that only looks, also where nothing is in the container. -/
def Container.see {α : Type} (K : Container α) (f : α → Bytes → Prop) : Effect :=
  keeping fun v v' reply => v' = v ∧ match K.view v with
    | none => reply = errWrongType
    | some a => f a reply

def arrayOf (xs : List Bytes) : Bytes := Reply.arrayHeader xs.length ++ xs.flatMap Reply.bulk

/-- The reply of a pop: an array for a count, else the one element. -/
def popReply (argv : List Bytes) (xs : List Bytes) : Bytes :=
  if argv.length = 3 then arrayOf xs else xs.head?.elim Reply.nullBulk Reply.bulk

/-! Lists are sequences. -/

def lists : Container (List Bytes) where
  view
    | none => some []
    | some (.list l) => some l
    | some _ => none
  wrap l := if l = [] then none else some (.list l)

def push (head : Bool) (argv : List Bytes) : Effect := lists.effect fun l l' reply =>
  l' = (if head then (argv.drop 2).reverse ++ l else l ++ argv.drop 2) ∧ reply = Reply.integer l'.length

def pop (head : Bool) (argv : List Bytes) : Effect := lists.effect fun l l' reply =>
  match Cmd.popCount argv with
  | none => l' = l ∧ reply = errNotInt
  | some count =>
    if l = [] then l' = [] ∧ reply = if argv.length = 3 then Reply.nullArray else Reply.nullBulk
    else ∃ xs, xs.length = min count.toNat l.length ∧ l = (if head then xs ++ l' else l' ++ xs.reverse) ∧
      reply = popReply argv xs

def llen : Effect := lists.look fun l reply => reply = Reply.integer l.length

def lrange (argv : List Bytes) : Effect := lists.look fun l reply =>
  match parseInt (arg argv 2), parseInt (arg argv 3) with
  | some start, some stop => reply = arrayOf (slice l start stop)
  | _, _ => reply = errNotInt

/-- The place of an index in a list. -/
def At (l : List Bytes) (i : ℤ) (n : ℕ) : Prop := n < l.length ∧ index l.length i = n

def lindex (argv : List Bytes) : Effect := lists.look fun l reply =>
  match parseInt (arg argv 2) with
  | none => reply = errNotInt
  | some i => (∃ n x, At l i n ∧ l[n]? = some x ∧ reply = Reply.bulk x) ∨
      (¬∃ n, At l i n) ∧ reply = Reply.nullBulk

def lset (argv : List Bytes) : Effect := lists.effect fun l l' reply =>
  if l = [] then l' = [] ∧ reply = errNoSuchKey
  else match parseInt (arg argv 2) with
    | none => l' = l ∧ reply = errNotInt
    | some i => (∃ n, At l i n ∧ l' = l.set n (arg argv 3) ∧ reply = Reply.simpleString (ascii "OK")) ∨
        (¬∃ n, At l i n) ∧ l' = l ∧ reply = Reply.error (ascii "ERR index out of range")

/-! Sets are finite sets. -/

def sets : Container (Finset Bytes) where
  view
    | none => some ∅
    | some (.set s) => some s
    | some _ => none
  wrap s := if s = ∅ then none else some (.set s)

def sadd (argv : List Bytes) : Effect := sets.effect fun s s' reply =>
  s' = s ∪ (argv.drop 2).toFinset ∧ reply = Reply.integer ((argv.drop 2).toFinset \ s).card

def srem (argv : List Bytes) : Effect := sets.effect fun s s' reply =>
  s' = s \ (argv.drop 2).toFinset ∧ reply = Reply.integer ((argv.drop 2).toFinset ∩ s).card

def sismember (argv : List Bytes) : Effect := sets.look fun s reply =>
  reply = Reply.integer (if arg argv 2 ∈ s then 1 else 0)

def scard : Effect := sets.look fun s reply => reply = Reply.integer s.card

def smembers : Effect :=
  sets.look fun s reply => ∃ l : List Bytes, l.Nodup ∧ l.toFinset = s ∧ reply = arrayOf l

def spop (argv : List Bytes) : Effect := sets.effect fun s s' reply =>
  match Cmd.popCount argv with
  | none => s' = s ∧ reply = errNotInt
  | some count => ∃ l : List Bytes, l.Nodup ∧ l.toFinset ⊆ s ∧ l.length = min count.toNat s.card ∧
      s' = s \ l.toFinset ∧ reply = popReply argv l

/-! Hashes are finite maps. -/

open Classical in
noncomputable def hashes : Container (Bytes → Option Bytes) where
  view
    | none => some fun _ => none
    | some (.hash h) => some h
    | some _ => none
  wrap h := if ∀ f, h f = none then none else some (.hash h)

/-- The entries of a map in some order. -/
def Entries {α : Type} (h : Bytes → Option α) (l : List (Bytes × α)) : Prop :=
  (l.map Prod.fst).Nodup ∧ ∀ f v, (f, v) ∈ l ↔ h f = some v

/-- A map after some assignments. -/
def assign (h : Bytes → Option Bytes) (ps : List (Bytes × Bytes)) : Bytes → Option Bytes :=
  ps.foldl (fun h p => Function.update h p.1 (some p.2)) h

noncomputable def hset (argv : List Bytes) : Effect :=
  if argv.length % 2 ≠ 0 then refused (errWrongArgs (cmdName argv))
  else hashes.effect fun h h' reply => h' = assign h (pairs (argv.drop 2)) ∧
    reply = if Cmd.isHmset argv then Reply.simpleString (ascii "OK")
      else Reply.integer (((pairs (argv.drop 2)).map Prod.fst).toFinset.filter fun f => h f = none).card

noncomputable def hget (argv : List Bytes) : Effect := hashes.look fun h reply =>
  reply = (h (arg argv 2)).elim Reply.nullBulk Reply.bulk

noncomputable def hdel (argv : List Bytes) : Effect := hashes.effect fun h h' reply =>
  (h' = fun f => if f ∈ argv.drop 2 then none else h f) ∧
    reply = Reply.integer ((argv.drop 2).toFinset.filter fun f => h f ≠ none).card

noncomputable def hexists (argv : List Bytes) : Effect := hashes.look fun h reply =>
  reply = Reply.integer (if h (arg argv 2) ≠ none then 1 else 0)

/-- `HGETALL`, `HKEYS` and `HVALS`. -/
noncomputable def hentries (parts : Bytes × Bytes → List Bytes) : Effect := hashes.look fun h reply =>
  ∃ l, Entries h l ∧ reply = arrayOf (l.flatMap parts)

noncomputable def hlen : Effect := hashes.look fun h reply => ∃ l, Entries h l ∧ reply = Reply.integer l.length

noncomputable def hincrby (argv : List Bytes) : Effect :=
  match parseInt (arg argv 3) with
  | none => refused errNotInt
  | some delta => hashes.effect fun h h' reply =>
    match (h (arg argv 2)).elim (some 0) parseInt with
    | none => h' = h ∧ reply = Reply.error (ascii "ERR hash value is not an integer")
    | some cur => h' = Function.update h (arg argv 2) (some (intToString (i64 (cur + delta)))) ∧
        reply = Reply.integer (i64 (cur + delta))

noncomputable def hmget (argv : List Bytes) : Effect := hashes.look fun h reply =>
  reply = Reply.arrayHeader (argv.length - 2) ++
    (argv.drop 2).flatMap fun f => (h f).elim Reply.nullBulk Reply.bulk

/-! Sorted sets are finite maps to scores, in the order of the scores and then of the members. -/

/-- The value of a sorted set. -/
structure ZValue where
  scores : Bytes → Option Double
  ordered : Prop

open Classical in
noncomputable def zsets : Container ZValue where
  view
    | none => some ⟨fun _ => none, True⟩
    | some (.zset s ordered) => some ⟨s, ordered⟩
    | some _ => none
  wrap a := if ∀ m, a.scores m = none then none else some (.zset a.scores a.ordered)

/-- Scores that can be put in order and ranked in 32 bits. -/
def Rankable (s : Bytes → Option Double) : Prop :=
  (∀ m v, s m = some v → v.isNaN = false) ∧ ∃ l, Entries s l ∧ l.length < 2 ^ 32

/-- The members in order. -/
def Ranked (s : Bytes → Option Double) (l : List (Bytes × Double)) : Prop :=
  (l.Pairwise fun a b => a.2.lt b.2 ∨ a.2.eq b.2 ∧ a.1 < b.1) ∧ ∀ m v, (m, v) ∈ l ↔ s m = some v

/-- The elements of a reply for one member. -/
def scored (withscores : Bool) (p : Bytes × Double) : List Bytes :=
  Reply.bulk p.1 :: if withscores then [Reply.doubleReply p.2] else []

def elementsReply (elements : List Bytes) : Bytes := Reply.arrayHeader elements.length ++ elements.flatten

noncomputable def zscore (argv : List Bytes) : Effect := zsets.see fun a reply =>
  reply = (a.scores (arg argv 2)).elim Reply.nullBulk Reply.doubleReply

noncomputable def zcard : Effect := zsets.see fun a reply =>
  ∃ l, Entries a.scores l ∧ reply = Reply.integer l.length

noncomputable def zrank (argv : List Bytes) : Effect := zsets.see fun a reply =>
  match a.scores (arg argv 2) with
  | none => reply = Reply.nullBulk
  | some v => a.ordered → ∃ (l : List (Bytes × Double)) (r : ℕ), Ranked a.scores l ∧
      l[r]? = some (arg argv 2, v) ∧
      reply = Reply.integer r

noncomputable def zrange (argv : List Bytes) : Effect := zsets.see fun a reply =>
  match parseInt (arg argv 2), parseInt (arg argv 3) with
  | some start, some stop => a.ordered → ∃ l, Ranked a.scores l ∧
      reply = elementsReply ((slice
        (if ((argv.drop 4).map lowercase).contains (ascii "rev") then l.reverse else l)
        start stop).flatMap (scored (((argv.drop 4).map lowercase).contains (ascii "withscores"))))
  | _, _ => reply = errNotInt

def Selects (lo hi : Cmd.Bound) (v : Double) : Bool :=
  (if lo.exclusive then lo.score.lt v else lo.score.le v) &&
    (if hi.exclusive then v.lt hi.score else v.le hi.score)

/-- What `LIMIT` leaves; a negative count is none. -/
def limit {α : Type} (offset count : ℤ) (l : List α) : List α :=
  if count < 0 then l.drop offset.toNat else (l.drop offset.toNat).take count.toNat

/-- Bounds that are not numbers may select anything. -/
noncomputable def zrangebyscore (argv : List Bytes) : Effect :=
  match Cmd.parseBound (arg argv 2), Cmd.parseBound (arg argv 3) with
  | some lo, some hi => zsets.see fun a reply =>
    a.ordered → lo.score.isNaN = false ∧ hi.score.isNaN = false → ∃ l, Ranked a.scores l ∧
      reply = elementsReply ((limit (Cmd.scoreOpts ⟨false, 0, -1⟩ (argv.drop 4)).offset
        (Cmd.scoreOpts ⟨false, 0, -1⟩ (argv.drop 4)).limit (l.filter fun p => Selects lo hi p.2)).flatMap
          (scored (Cmd.scoreOpts ⟨false, 0, -1⟩ (argv.drop 4)).withscores))
  | _, _ => refused (Reply.error (ascii "ERR min or max is not a float"))

noncomputable def zrem (argv : List Bytes) : Effect := zsets.effect fun a a' reply =>
  (a'.scores = fun m => if m ∈ argv.drop 2 then none else a.scores m) ∧ (a.ordered → a'.ordered) ∧
    reply = Reply.integer ((argv.drop 2).toFinset.filter fun m => a.scores m ≠ none).card

/-- A new score for a member; one that equals the old one is not written. -/
def rescore (s : Bytes → Option Double) (m : Bytes) (v : Double) : Bytes → Option Double :=
  if (s m).any (·.eq v) then s else Function.update s m (some v)

noncomputable def zincrby (argv : List Bytes) : Effect :=
  match parseDouble (arg argv 2) with
  | none => refused errNotFloat
  | some delta => zsets.effect fun a a' reply =>
    a'.scores = rescore a.scores (arg argv 3) (((a.scores (arg argv 3)).getD .zero).add delta) ∧
      (a.ordered → Rankable a'.scores → a'.ordered) ∧
      reply = Reply.doubleReply (((a.scores (arg argv 3)).getD .zero).add delta)

/-- The scores while `ZADD` goes through its pairs, and what it counts. -/
structure Scoring where
  value : ZValue
  added : ℕ
  changed : ℕ
  /-- The score of the last pair that was not passed over. -/
  last : Option Double

namespace Scoring

def store (t : Scoring) (m : Bytes) (score : Double) (added : ℕ) : Scoring :=
  let s := Function.update t.value.scores m (some score)
  ⟨⟨s, t.value.ordered ∧ Rankable s⟩, t.added + added, t.changed + 1, some score⟩

/-- One pair. `NX` passes over old members and `XX` over new ones, `GT` and `LT` over old ones that
would not go up, or down. -/
def round (f : Cmd.ZAddFlags) (t : Scoring) (score : Double) (m : Bytes) : Scoring :=
  match t.value.scores m with
  | none => if f.xx then t else t.store m (if f.incr then score.add .zero else score) 1
  | some cur =>
    let score := if f.incr then score.add cur else score
    if f.nx ∨ f.gt ∧ score.le cur ∨ f.lt ∧ cur.le score then t
    else if cur.eq score then { t with last := some score }
    else t.store m score 0

/-- All pairs up to the first score that does not parse, and whether there is none. -/
def rounds (f : Cmd.ZAddFlags) : Scoring → List (Bytes × Bytes) → Scoring × Bool
  | t, [] => (t, true)
  | t, (s, m) :: rest =>
    match parseDouble s with
    | none => (t, false)
    | some score => rounds f (t.round f score m) rest

def reply (f : Cmd.ZAddFlags) (t : Scoring) : Bytes :=
  if f.incr then t.last.elim Reply.nullBulk Reply.doubleReply
  else Reply.integer (if f.ch then t.changed else t.added)

end Scoring

/-- A `ZADD` that stops at a bad score has stored what came before, under a key that is there. -/
noncomputable def zaddPairs (f : Cmd.ZAddFlags) (ps : List (Bytes × Bytes)) : Effect :=
  keeping fun v v' reply => match zsets.view v with
    | none => v' = v ∧ reply = errWrongType
    | some a => ∃ ordered : Prop, ((Scoring.rounds f ⟨a, 0, 0, none⟩ ps).1.value.ordered → ordered) ∧
        if (Scoring.rounds f ⟨a, 0, 0, none⟩ ps).2 then
          v' = zsets.wrap ⟨(Scoring.rounds f ⟨a, 0, 0, none⟩ ps).1.value.scores, ordered⟩ ∧
            reply = (Scoring.rounds f ⟨a, 0, 0, none⟩ ps).1.reply f
        else v' = some (.zset (Scoring.rounds f ⟨a, 0, 0, none⟩ ps).1.value.scores ordered) ∧
          reply = errNotFloat

noncomputable def zadd (argv : List Bytes) : Effect :=
  let args := Cmd.zaddFlags ⟨false, false, false, false, false, false⟩ (argv.drop 2)
  if args.2 = [] ∨ args.2.length % 2 ≠ 0 then refused errSyntax else zaddPairs args.1 (pairs args.2)

/-! Strings. What writes a string anew drops its deadline; only `APPEND` keeps it. -/

/-- A command on a string: no key is no string. -/
def onString (f : Option Bytes → Cell → Cell → Bytes → Prop) : Effect := fun _ e e' reply =>
  match e with
  | none => f none e e' reply
  | some (.string s, _) => f (some s) e e' reply
  | some _ => e' = e ∧ reply = errWrongType

def get : Effect := onString fun s e e' reply => e' = e ∧ reply = Cmd.replyOpt s

def strlen : Effect := onString fun s e e' reply => e' = e ∧ reply = Reply.integer (s.getD []).length

def getrange (argv : List Bytes) : Effect := onString fun s e e' reply => e' = e ∧
  match s, parseInt (arg argv 2), parseInt (arg argv 3) with
  | none, _, _ => reply = Reply.bulk []
  | some s, some start, some stop => reply = Reply.bulk (slice s start stop)
  | _, _, _ => reply = errNotInt

def append (argv : List Bytes) : Effect := onString fun s e e' reply =>
  e' = some (.string (s.getD [] ++ arg argv 2), e.bind Prod.snd) ∧
    reply = Reply.integer (s.getD [] ++ arg argv 2).length

def getset (argv : List Bytes) : Effect := onString fun s _ e' reply =>
  e' = some (.string (arg argv 2), none) ∧ reply = Cmd.replyOpt s

/-- Bytes `offset` and on become those of `val`, after zeros up to there. -/
def patched (s : Bytes) (offset : ℕ) (val s' : Bytes) : Prop :=
  s'.length = max s.length (offset + val.length) ∧
    ∀ i < s'.length, s'.getD i 0 =
      if offset ≤ i ∧ i < offset + val.length then val.getD (i - offset) 0 else s.getD i 0

def setrange (argv : List Bytes) : Effect :=
  match (parseInt (arg argv 2)).filter (0 ≤ ·) with
  | none => refused errNotInt
  | some offset => onString fun s _ e' reply => ∃ s', patched (s.getD []) offset.toNat (arg argv 3) s' ∧
      e' = some (.string s', none) ∧ reply = Reply.integer s'.length

/-- A counter goes up by `delta`, unless the sum is out of range. -/
def incrBy (delta : ℤ) : Effect := onString fun s e e' reply =>
  match s.elim (some 0) parseInt with
  | none => e' = e ∧ reply = errNotInt
  | some cur =>
    if fitsInt64 (cur + delta) then
      e' = some (.string (intToString (cur + delta)), none) ∧ reply = Reply.integer (cur + delta)
    else e' = e ∧ reply = Reply.error (ascii "ERR increment or decrement would overflow")

/-- `INCRBY` and `DECRBY`, which negates in 64 bits. -/
def incrByArg (negate : Bool) (argv : List Bytes) : Effect :=
  match parseInt (arg argv 2) with
  | none => refused errNotInt
  | some d => incrBy (if negate then i64 (-d) else d)

def incrbyfloat (argv : List Bytes) : Effect :=
  match parseDouble (arg argv 2) with
  | none => refused errNotFloat
  | some delta => onString fun s e e' reply =>
    match s.elim (some .zero) parseDouble with
    | none => e' = e ∧ reply = errNotFloat
    | some cur => e' = some (.string (doubleToString (cur.add delta)), none) ∧
        reply = Reply.bulk (doubleToString (cur.add delta))

def setnx (argv : List Bytes) : Effect := fun _ e e' reply =>
  if e.isSome then e' = e ∧ reply = Reply.integer 0
  else e' = some (.string (arg argv 2), none) ∧ reply = Reply.integer 1

def setex (argv : List Bytes) : Effect :=
  match (parseInt (arg argv 2)).filter (0 < ·) with
  | none => refused (Reply.error (ascii "ERR invalid expire time in 'setex' command"))
  | some span => fun now _ e' reply =>
    e' = (some (.string (arg argv 3), some (u64 (now +
      if lowercase (cmdName argv) = ascii "psetex" then toU64 span
      else u64 (toU64 span * 1000))))).filter (alive now) ∧
      reply = Reply.simpleString (ascii "OK")

def stringOf : Cell → Option Bytes
  | some (.string s, _) => some s
  | _ => none

/-- `SET`: an `NX` is stopped by a string only. -/
def set (argv : List Bytes) : Effect := fun now e e' reply =>
  match Cmd.setOpts now ⟨0, false, false, false, false⟩ (argv.drop 3) with
  | .error error => e' = e ∧ reply = error
  | .ok o =>
    if o.nx ∧ (stringOf e).isSome then e' = e ∧
      reply = if o.get then Cmd.replyOpt (stringOf e) else Reply.nullBulk
    else if o.xx ∧ e.isNone then e' = e ∧ reply = Reply.nullBulk
    else e' = (some (.string (arg argv 2), if o.deadline ≠ 0 then some o.deadline
        else if o.keepttl then e.bind Prod.snd else none)).filter (alive now) ∧
      reply = if o.get then Cmd.replyOpt (stringOf e) else Reply.simpleString (ascii "OK")

/-! Keys. -/

/-- `EXPIRE`, `PEXPIRE` and `EXPIREAT`. -/
def expireBy (deadline : ℕ → ℕ → ℕ) (argv : List Bytes) : Effect :=
  match parseInt (arg argv 2) with
  | none => refused errNotInt
  | some n => fun now e e' reply =>
    e' = (e.map fun x => (x.1, some (deadline now (max 0 n).toNat))).filter (alive now) ∧
      reply = Reply.integer (if e.isSome then 1 else 0)

/-- The milliseconds that are left, `-1` for no deadline and `-2` for no key. -/
def remaining (now : ℕ) : Cell → ℤ
  | none => -2
  | some (_, none) => -1
  | some (_, some dl) => i64 (u64 (dl - now))

def ttl : Effect := fun now e e' reply => e' = e ∧
  reply = Reply.integer (if remaining now e < 0 then remaining now e else (remaining now e + 999).tdiv 1000)

def pttl : Effect := fun now e e' reply => e' = e ∧ reply = Reply.integer (remaining now e)

def persist : Effect := fun _ e e' reply => e' = (e.map fun x => (x.1, none)) ∧
  reply = Reply.integer (if (e.bind Prod.snd).isSome then 1 else 0)

def Value.typeName : Value → Bytes
  | string _ => ascii "string"
  | list _ => ascii "list"
  | set _ => ascii "set"
  | hash _ => ascii "hash"
  | zset _ _ => ascii "zset"
  | other o => BlazeKV.typeName o.type

def type : Effect := fun _ e e' reply => e' = e ∧
  reply = Reply.simpleString (e.elim (ascii "none") fun x => x.1.typeName)

/-! Commands on the store. -/

/-- Values with their deadlines. -/
abbrev Holdings := Bytes → Cell

/-- What is left of a store at a clock reading. -/
def Holdings.at (A : Holdings) (now : ℕ) : Holdings := fun k => (A k).filter (alive now)

/-- A command, by the clock: the store before and after, and the reply. -/
abbrev Command := ℕ → Holdings → Holdings → Bytes → Prop

def onKey (E : List Bytes → Effect) (argv : List Bytes) : Command := fun now A A' reply =>
  ∃ e, E argv now (A (arg argv 1)) e reply ∧ A' = Function.update A (arg argv 1) e

/-- `DEL` may count keys that are past their deadline. -/
def del (argv : List Bytes) : Command := fun _ A A' reply =>
  (A' = fun k => if k ∈ argv.tail then none else A k) ∧
    ∃ n : ℕ, (argv.tail.toFinset.filter fun k => (A k).isSome).card ≤ n ∧ n ≤ argv.tail.toFinset.card ∧
      reply = Reply.integer n

def exists' (argv : List Bytes) : Command := fun _ A A' reply => A' = A ∧
  reply = Reply.integer (argv.tail.countP fun k => (A k).isSome)

def mget (argv : List Bytes) : Command := fun _ A A' reply => A' = A ∧
  reply = Reply.arrayHeader (argv.length - 1) ++ argv.tail.flatMap fun k => Cmd.replyOpt (stringOf (A k))

/-- A store after some assignments. -/
def storeAll (A : Holdings) (ps : List (Bytes × Bytes)) : Holdings :=
  ps.foldl (fun (A : Holdings) p => Function.update A p.1 (some (.string p.2, none))) A

def mset (argv : List Bytes) : Command := fun _ A A' reply =>
  if argv.length % 2 ≠ 1 then A' = A ∧ reply = errWrongArgs (cmdName argv)
  else A' = storeAll A (pairs argv.tail) ∧ reply = Reply.simpleString (ascii "OK")

def rename (argv : List Bytes) : Command := fun _ A A' reply =>
  if (A (arg argv 1)).isNone then A' = A ∧ reply = errNoSuchKey
  else A' = Function.update (Function.update A (arg argv 1) none) (arg argv 2) (A (arg argv 1)) ∧
    reply = Reply.simpleString (ascii "OK")

def flushall : Command := fun _ _ A' reply => A' = (fun _ => none) ∧ reply = Reply.simpleString (ascii "OK")

/-- The commands by name. -/
noncomputable def commands : List (Bytes × (List Bytes → Command)) := [
  (ascii "get", onKey fun _ => get),
  (ascii "set", onKey set),
  (ascii "setnx", onKey setnx),
  (ascii "setex", onKey setex),
  (ascii "psetex", onKey setex),
  (ascii "getset", onKey getset),
  (ascii "append", onKey append),
  (ascii "strlen", onKey fun _ => strlen),
  (ascii "incr", onKey fun _ => incrBy 1),
  (ascii "decr", onKey fun _ => incrBy (-1)),
  (ascii "incrby", onKey (incrByArg false)),
  (ascii "decrby", onKey (incrByArg true)),
  (ascii "incrbyfloat", onKey incrbyfloat),
  (ascii "mget", mget),
  (ascii "mset", mset),
  (ascii "getrange", onKey getrange),
  (ascii "setrange", onKey setrange),
  (ascii "del", del),
  (ascii "unlink", del),
  (ascii "exists", exists'),
  (ascii "touch", exists'),
  (ascii "expire", onKey (expireBy fun now secs => u64 (now + u64 (secs * 1000)))),
  (ascii "pexpire", onKey (expireBy fun now ms => u64 (now + ms))),
  (ascii "expireat", onKey (expireBy fun _ at' => u64 (at' * 1000))),
  (ascii "ttl", onKey fun _ => ttl),
  (ascii "pttl", onKey fun _ => pttl),
  (ascii "persist", onKey fun _ => persist),
  (ascii "type", onKey fun _ => type),
  (ascii "rename", rename),
  (ascii "hset", onKey hset),
  (ascii "hmset", onKey hset),
  (ascii "hget", onKey hget),
  (ascii "hdel", onKey hdel),
  (ascii "hexists", onKey hexists),
  (ascii "hgetall", onKey fun _ => hentries fun e => [e.1, e.2]),
  (ascii "hkeys", onKey fun _ => hentries fun e => [e.1]),
  (ascii "hvals", onKey fun _ => hentries fun e => [e.2]),
  (ascii "hlen", onKey fun _ => hlen),
  (ascii "hincrby", onKey hincrby),
  (ascii "hmget", onKey hmget),
  (ascii "lpush", onKey (push true)),
  (ascii "rpush", onKey (push false)),
  (ascii "lpop", onKey (pop true)),
  (ascii "rpop", onKey (pop false)),
  (ascii "llen", onKey fun _ => llen),
  (ascii "lrange", onKey lrange),
  (ascii "lindex", onKey lindex),
  (ascii "lset", onKey lset),
  (ascii "sadd", onKey sadd),
  (ascii "srem", onKey srem),
  (ascii "sismember", onKey sismember),
  (ascii "scard", onKey fun _ => scard),
  (ascii "smembers", onKey fun _ => smembers),
  (ascii "spop", onKey spop),
  (ascii "zadd", onKey zadd),
  (ascii "zrem", onKey zrem),
  (ascii "zscore", onKey zscore),
  (ascii "zcard", onKey fun _ => zcard),
  (ascii "zrank", onKey zrank),
  (ascii "zrange", onKey zrange),
  (ascii "zrangebyscore", onKey zrangebyscore),
  (ascii "zincrby", onKey zincrby),
  (ascii "flushall", fun _ => flushall),
  (ascii "flushdb", fun _ => flushall)]

/-- One request at a clock reading, on what has not expired by then. One that reaches no handler
changes nothing, nor does a handler that only reads; the other ones that are not told of here may. -/
def Holdings.Step (A : Holdings) (now : ℕ) (argv : List Bytes) (reply : Bytes) (A' : Holdings) : Prop :=
  match route argv with
  | .error error => A' = A.at now ∧ reply = error
  | .ok spec => (∀ C, (spec.name, C) ∈ commands → C argv now (A.at now) A' reply) ∧
      (spec.name ∉ commands.map Prod.fst → spec.write = false → A' = A.at now)

/-- A run of commands, each at its clock reading, with its replies. -/
inductive Holdings.Run : Holdings → List (ℕ × List Bytes) → List Bytes → Holdings → Prop
  | nil (A) : Run A [] [] A
  | cons {A A1 A' now argv reply cmds replies} (h : A.Step now argv reply A1) (hs : Run A1 cmds replies A') :
      Run A ((now, argv) :: cmds) (reply :: replies) A'

end BlazeKV.Abstract
