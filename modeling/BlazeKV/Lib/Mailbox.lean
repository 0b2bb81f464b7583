import BlazeKV.Lib.Actors

/-! A mailbox with many senders, as its events show it. A sent message joins the queue;
the owner takes the whole queue as a batch and receives the batch one by one, while
further messages are sent. -/

namespace BlazeKV.Lib

inductive Mail (ι μ : Type)
  /-- A sender sets out to send a message, and its message joins the queue. -/
  | begun (i : ι) (v : μ)
  | sent (i : ι) (v : μ)
  /-- The owner takes the queue, receives a message, and has received the batch. -/
  | taken
  | received (v : μ)
  | emptied (count : ℕ)

namespace Mail

variable {ι μ : Type}

def sends : List (Mail ι μ) → List (ι × μ)
  | [] => []
  | .sent i v :: es => (i, v) :: sends es
  | _ :: es => sends es

def receipts : List (Mail ι μ) → List μ
  | [] => []
  | .received v :: es => v :: receipts es
  | _ :: es => receipts es

/-- What one sender has set out to send, in its own order. -/
def begunBy [DecidableEq ι] (i : ι) : List (Mail ι μ) → List μ
  | [] => []
  | .begun j v :: es => if j = i then v :: begunBy i es else begunBy i es
  | _ :: es => begunBy i es

@[simp] theorem sends_append (es es' : List (Mail ι μ)) : sends (es ++ es') = sends es ++ sends es' := by
  induction es with
  | nil => rfl
  | cons e es ih => cases e <;> simp [sends, ih]

@[simp] theorem begunBy_append [DecidableEq ι] (i : ι) (es es' : List (Mail ι μ)) :
    begunBy i (es ++ es') = begunBy i es ++ begunBy i es' := by
  induction es with
  | nil => rfl
  | cons e es ih =>
    cases e with
    | begun j v => by_cases h : j = i <;> simp [begunBy, ih, h]
    | sent j v => exact ih
    | taken => exact ih
    | received v => exact ih
    | emptied n => exact ih

end Mail

/-- The owner, with the message that each sender has not sent yet. -/
abbrev Mailbox (ι μ : Type) := Actor (ι → Option μ) μ

namespace Mailbox

variable {ι μ : Type} [DecidableEq ι]

def empty : Mailbox ι μ := ⟨fun _ => none, [], []⟩

inductive Follows : Mailbox ι μ → Mail ι μ → Mailbox ι μ → Prop
  | begun {b : Mailbox ι μ} {i : ι} (h : b.state i = none) (v : μ) :
      Follows b (.begun i v) { b with state := Function.update b.state i (some v) }
  | sent {b : Mailbox ι μ} {i : ι} {v : μ} (h : b.state i = some v) :
      Follows b (.sent i v) { b with state := Function.update b.state i none, queue := b.queue ++ [v] }
  | taken {b : Mailbox ι μ} (h : b.batch = []) : Follows b .taken b.take
  | received {b : Mailbox ι μ} {v : μ} {vs : List μ} (h : b.batch = v :: vs) :
      Follows b (.received v) { b with batch := vs }
  | emptied {b : Mailbox ι μ} (h : b.batch = []) (count : ℕ) : Follows b (.emptied count) b

inductive Run : Mailbox ι μ → List (Mail ι μ) → Mailbox ι μ → Prop
  | nil (b : Mailbox ι μ) : Run b [] b
  | cons {b b' b'' : Mailbox ι μ} {e : Mail ι μ} {es : List (Mail ι μ)} (h : Follows b e b')
      (hs : Run b' es b'') : Run b (e :: es) b''

namespace Run

variable {b b' b'' : Mailbox ι μ} {es es' : List (Mail ι μ)}

theorem one {e : Mail ι μ} (h : Follows b e b') : Run b [e] b' := .cons h (.nil b')

theorem append (h : Run b es b') (h' : Run b' es' b'') : Run b (es ++ es') b'' := by
  induction h with
  | nil => exact h'
  | cons he _ ih => exact .cons he (ih h')

theorem split : ∀ {es es' : List (Mail ι μ)} {b b'' : Mailbox ι μ}, Run b (es ++ es') b'' →
    ∃ b', Run b es b' ∧ Run b' es' b''
  | [], _, b, _, h => ⟨b, .nil b, h⟩
  | _ :: _, _, _, _, .cons he h =>
    have ⟨b', h1, h2⟩ := split h
    ⟨b', .cons he h1, h2⟩

/-- Nothing is lost, doubled or overtaken. -/
theorem held (h : Run b es b') :
    b.held ++ (Mail.sends es).map Prod.snd = Mail.receipts es ++ b'.held := by
  induction h with
  | nil b => simp [Mail.sends, Mail.receipts]
  | cons he _ ih =>
    cases he with
    | begun h v => exact ih
    | sent h => simpa [Mail.sends, Mail.receipts, Actor.held] using ih
    | taken h => simpa [Mail.sends, Mail.receipts] using ih
    | received h =>
      simp only [Mail.sends, Mail.receipts, Actor.held] at ih ⊢
      rw [h, List.cons_append, List.cons_append, ih, List.cons_append]
    | emptied h => exact ih

/-- Each sender's messages join the queue in the sender's order. -/
theorem sender (h : Run b es b') (i : ι) :
    (b.state i).toList ++ Mail.begunBy i es =
      ((Mail.sends es).filter fun s => s.1 = i).map Prod.snd ++ (b'.state i).toList := by
  induction h with
  | nil b => simp [Mail.sends, Mail.begunBy]
  | cons he _ ih =>
    cases he with
    | @begun j h v =>
      by_cases hj : j = i
      · subst hj
        simpa [Mail.sends, Mail.begunBy, h] using ih
      · simpa [Mail.sends, Mail.begunBy, hj, Function.update_of_ne (Ne.symm hj)] using ih
    | @sent j v h =>
      by_cases hj : j = i
      · subst hj
        simpa [Mail.sends, Mail.begunBy, h] using ih
      · simpa [Mail.sends, Mail.begunBy, hj, Function.update_of_ne (Ne.symm hj)] using ih
    | taken h => exact ih
    | received h => exact ih
    | emptied h => exact ih

end Run

end Mailbox

end BlazeKV.Lib
