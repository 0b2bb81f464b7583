import BlazeKV.Lib.Machine
import BlazeKV.Spec.MpscQueue

/-! The queue of a mailbox is a mailbox: whatever its threads do, its events are those of
messages that are sent, taken in one batch and received in the order they were sent. -/

namespace BlazeKV.MpscQueue

open Lib (Memory Mail Mailbox)

/-- The node of a push that has not put it into the queue yet. -/
def Push.node? : Push → Option ℕ
  | idle => none
  | made node => some node
  | loaded node _ => some node
  | linked node _ => some node

variable {ι μ : Type}

/-- What a push still has to send. -/
inductive Pending (m : Memory ℕ μ) : Push → Option μ → Prop
  | idle : Pending m .idle none
  | made {a : ℕ} {n : Lib.Node ℕ μ} (h : m a = some n) : Pending m (.made a) (some n.value)
  | loaded {a : ℕ} {n : Lib.Node ℕ μ} (h : m a = some n) (head : Option ℕ) :
      Pending m (.loaded a head) (some n.value)
  | linked {a : ℕ} {n : Lib.Node ℕ μ} (h : m a = some n) : Pending m (.linked a n.next) (some n.value)

/-- The nodes that `drain` has taken, the values it has not delivered yet, and the steps
from here to its end. -/
inductive Drains (m : Memory ℕ μ) : Drain → List (ℕ × μ) → List μ → ℕ → Prop
  | idle : Drains m .idle [] [] 0
  | reversing {prev list : Option ℕ} {done todo : List (ℕ × μ)} (hdone : m.Linked prev done)
      (htodo : m.Linked list todo) :
      Drains m (.reversing prev list) (todo ++ done) ((todo.reverse ++ done).map Prod.snd)
        (3 * todo.length + 2 * done.length + 2)
  | delivering {prev : Option ℕ} {rest : List (ℕ × μ)} (hrest : m.Linked prev rest) (count : ℕ) :
      Drains m (.delivering prev count) rest (rest.map Prod.snd) (2 * rest.length + 1)
  | calling {prev : ℕ} {next : Option ℕ} {n : Lib.Node ℕ μ} {rest : List (ℕ × μ)} (hprev : m prev = some n)
      (hrest : m.Linked next rest) (count : ℕ) :
      Drains m (.calling prev next count) ((prev, n.value) :: rest) (rest.map Prod.snd) (2 * rest.length + 2)

section Frame

variable {m : Memory ℕ μ} {a : ℕ} (n : Option (Lib.Node ℕ μ))

theorem Pending.update {p : Push} {v : Option μ} (h : Pending m p v) (ha : p.node? ≠ some a) :
    Pending (Function.update m a n) p v := by
  have hne : ∀ b, p.node? = some b → Function.update m a n b = m b := by
    intro b hb
    refine Function.update_of_ne ?_ _ _
    rintro rfl
    exact ha hb
  cases h with
  | idle => exact .idle
  | made h => exact .made (by rw [hne _ rfl, h])
  | loaded h head => exact .loaded (by rw [hne _ rfl, h]) head
  | linked h => exact .linked (by rw [hne _ rfl, h])

theorem Drains.update {d : Drain} {taken : List (ℕ × μ)} {vs : List μ} {left : ℕ} (h : Drains m d taken vs left)
    (ha : a ∉ taken.map Prod.fst) : Drains (Function.update m a n) d taken vs left := by
  cases h with
  | idle => exact .idle
  | reversing hdone htodo =>
    rw [List.map_append, List.mem_append, not_or] at ha
    exact .reversing (hdone.update ha.2 n) (htodo.update ha.1 n)
  | delivering hrest count => exact .delivering (hrest.update ha n) count
  | calling hprev hrest count =>
    rw [List.map_cons, List.mem_cons, not_or] at ha
    exact .calling (by rw [Function.update_of_ne (Ne.symm ha.1), hprev]) (hrest.update ha.2 n) count

theorem Drains.allocated {d : Drain} {taken : List (ℕ × μ)} {vs : List μ} {left : ℕ} (h : Drains m d taken vs left)
    (ha : a ∈ taken.map Prod.fst) : (m a).isSome := by
  cases h with
  | idle => simp at ha
  | reversing hdone htodo =>
    rw [List.map_append, List.mem_append] at ha
    rcases ha with ha | ha
    · exact htodo.allocated ha
    · exact hdone.allocated ha
  | delivering hrest count => exact hrest.allocated ha
  | calling hprev hrest count =>
    rw [List.map_cons, List.mem_cons] at ha
    rcases ha with rfl | ha
    · simp [hprev]
    · exact hrest.allocated ha

end Frame

/-- The queue holds what the mailbox does. The nodes of the stack at `head_`, those that
`drain` has taken and those of unfinished pushes are all different, which is why a node
that is freed and given out again does no harm. -/
structure Rep (s : State ι μ) (b : Mailbox ι μ) (stack taken : List (ℕ × μ)) (left : ℕ) : Prop where
  inQueue : s.nodes.Linked s.head stack
  inDrain : Drains s.nodes s.drain taken b.batch left
  queue : b.queue = (stack.map Prod.snd).reverse
  nodup : ((stack ++ taken).map Prod.fst).Nodup
  push : ∀ i, Pending s.nodes (s.push i) (b.state i)
  apart : ∀ i a, (s.push i).node? = some a → a ∉ (stack ++ taken).map Prod.fst
  own : ∀ i j a, (s.push i).node? = some a → (s.push j).node? = some a → i = j

theorem rep_init : Rep (.init : State ι μ) ⟨fun _ => none, [], []⟩ [] [] 0 where
  inQueue := .nil
  inDrain := .idle
  queue := rfl
  nodup := List.nodup_nil
  push _ := .idle
  apart _ _ h := by cases h
  own _ _ _ h := by cases h

namespace Rep

variable [DecidableEq ι] {s s' : State ι μ} {b : Mailbox ι μ} {stack taken : List (ℕ × μ)} {left : ℕ}
  {i : ι} {node : ℕ} {es : List (Mail ι μ)}

omit [DecidableEq ι] in
/-- A node of nobody: not of the queue, and of no push but that of `i`. -/
theorem setNode (h : Rep s b stack taken left) (ha : node ∉ (stack ++ taken).map Prod.fst)
    (n : Option (Lib.Node ℕ μ)) :
    (s.setNode node n).nodes.Linked s.head stack ∧ Drains (s.setNode node n).nodes s.drain taken b.batch left := by
  rw [List.map_append, List.mem_append, not_or] at ha
  exact ⟨h.inQueue.update ha.1 n, h.inDrain.update n ha.2⟩

/-- What a step of `i` has to keep when the queue and `drain` stay as they are. -/
theorem local_step (h : Rep s b stack taken left) {n : Option (Lib.Node ℕ μ)} {p : Push} {v : Option μ}
    (hp : Pending (Function.update s.nodes node n) p v) (hnode : p.node? = some node)
    (ha : node ∉ (stack ++ taken).map Prod.fst) (hown : ∀ j, j ≠ i → (s.push j).node? ≠ some node) :
    Rep ((s.setNode node n).setPush i p) { b with state := Function.update b.state i v } stack taken left where
  inQueue := (h.setNode ha n).1
  inDrain := (h.setNode ha n).2
  queue := h.queue
  nodup := h.nodup
  push j := by
    by_cases hj : j = i
    · subst hj
      simpa [State.setPush, State.setNode] using hp
    · simpa [State.setPush, State.setNode, hj] using (h.push j).update n (hown j hj)
  apart j a hja := by
    by_cases hj : j = i
    · subst hj
      simp only [State.setPush, Function.update_self, hnode] at hja
      exact Option.some.inj hja ▸ ha
    · simp only [State.setPush, State.setNode, Function.update_of_ne hj] at hja
      exact h.apart j a hja
  own j k a hja hka := by
    simp only [State.setPush, State.setNode] at hja hka
    by_cases hj : j = i <;> by_cases hk : k = i
    · rw [hj, hk]
    · subst hj
      rw [Function.update_self, hnode] at hja
      rw [Function.update_of_ne hk] at hka
      exact absurd (Option.some.inj hja ▸ hka) (hown k hk)
    · subst hk
      rw [Function.update_self, hnode] at hka
      rw [Function.update_of_ne hj] at hja
      exact absurd (Option.some.inj hka ▸ hja) (hown j hj)
    · rw [Function.update_of_ne hj] at hja
      rw [Function.update_of_ne hk] at hka
      exact h.own j k a hja hka

omit [DecidableEq ι] in
theorem allocated (h : Rep s b stack taken left) (ha : node ∈ (stack ++ taken).map Prod.fst) :
    (s.nodes node).isSome := by
  rw [List.map_append, List.mem_append] at ha
  rcases ha with ha | ha
  · exact h.inQueue.allocated ha
  · exact h.inDrain.allocated ha

theorem pending_allocated {m : Memory ℕ μ} {p : Push} {v : Option μ} (h : Pending m p v) (ha : p.node? = some node) :
    ∃ n, m node = some n ∧ v = some n.value := by
  cases h with
  | idle => cases ha
  | made h => exact ⟨_, Option.some.inj ha ▸ h, rfl⟩
  | loaded h => exact ⟨_, Option.some.inj ha ▸ h, rfl⟩
  | linked h => exact ⟨_, Option.some.inj ha ▸ h, rfl⟩

/-- A new node is at an address that nothing else has. -/
theorem call (h : Rep s b stack taken left) (hfree : (s.nodes node).isNone) (v : μ) :
    Rep ((s.setNode node (some ⟨none, v⟩)).setPush i (.made node))
      { b with state := Function.update b.state i (some v) } stack taken left := by
  have hnone : s.nodes node = none := by simpa using hfree
  refine h.local_step (.made (n := ⟨none, v⟩) (Function.update_self _ _ _)) rfl (fun ha => ?_) fun j _ hj => ?_
  · have := h.allocated ha
    simp [hnone] at this
  · obtain ⟨n, hn, -⟩ := pending_allocated (h.push j) hj
    simp [hnone] at hn

/-- A step of a push on its own node, which keeps its value. -/
theorem own_step (h : Rep s b stack taken left) (hi : (s.push i).node? = some node) {p : Push}
    {n : Lib.Node ℕ μ} (hp : ∀ m : Memory ℕ μ, m node = some n → Pending m p (b.state i))
    (hnode : p.node? = some node) : Rep ((s.setNode node (some n)).setPush i p) b stack taken left := by
  have hstep := h.local_step (i := i) (hp (Function.update s.nodes node (some n)) (Function.update_self _ _ _)) hnode
    (h.apart i node hi) fun j hj hjn => hj (h.own j i node hjn hi)
  rwa [Function.update_eq_self] at hstep

/-- The compare-exchange that succeeds puts the node on the stack it was linked to. -/
theorem exchange (h : Rep s b stack taken left) {head : Option ℕ} (hi : s.push i = .linked node head)
    (hh : s.head = head) : ∃ n, s.nodes node = some n ∧ b.state i = some n.value ∧
      Rep ({ s with head := some node }.setPush i .idle)
        { b with state := Function.update b.state i none, queue := b.queue ++ [n.value] }
        ((node, n.value) :: stack) taken left := by
  have hnode : (s.push i).node? = some node := by rw [hi, Push.node?]
  have hout := h.apart i node hnode
  obtain ⟨n, hn, hv, hnext⟩ : ∃ n, s.nodes node = some n ∧ b.state i = some n.value ∧ n.next = s.head := by
    have hp := h.push i
    rw [hi, ← hh] at hp
    generalize b.state i = o at hp ⊢
    generalize hd : s.head = d at hp ⊢
    cases hp with
    | linked hn => exact ⟨_, hn, rfl, rfl⟩
  refine ⟨n, hn, hv, ⟨?_, h.inDrain, ?_, ?_, ?_, ?_, ?_⟩⟩
  · exact .cons hn (hnext ▸ h.inQueue)
  · simp [h.queue]
  · rw [List.cons_append, List.map_cons, List.nodup_cons]
    exact ⟨hout, h.nodup⟩
  · intro j
    by_cases hj : j = i
    · subst hj
      simpa [State.setPush] using Pending.idle
    · simpa [State.setPush, hj] using h.push j
  · intro j a hja
    by_cases hj : j = i
    · subst hj
      simp [State.setPush, Push.node?] at hja
    · simp only [State.setPush, Function.update_of_ne hj] at hja
      rw [List.cons_append, List.map_cons, List.mem_cons, not_or]
      refine ⟨?_, h.apart j a hja⟩
      rintro rfl
      exact hj (h.own j i a hja hnode)
  · intro j k a hja hka
    simp only [State.setPush] at hja hka
    by_cases hj : j = i
    · subst hj
      simp [Push.node?] at hja
    by_cases hk : k = i
    · subst hk
      simp [Push.node?] at hka
    rw [Function.update_of_ne hj] at hja
    rw [Function.update_of_ne hk] at hka
    exact h.own j k a hja hka

omit [DecidableEq ι] in
/-- A step of `drain` that changes no node but one of its own. -/
theorem drain_step (h : Rep s b stack taken left) {d : Drain} {taken' : List (ℕ × μ)} {vs : List μ} {left' : ℕ}
    {n : Option (Lib.Node ℕ μ)} (ha : node ∈ taken.map Prod.fst)
    (hd : Drains (Function.update s.nodes node n) d taken' vs left')
    (hsub : (taken'.map Prod.fst).Subperm (taken.map Prod.fst)) (hvs : vs = b.batch) :
    Rep { s.setNode node n with drain := d } b stack taken' left' := by
  have hnd := h.nodup
  rw [List.map_append, List.nodup_append'] at hnd
  have hsubset : ∀ a, a ∈ taken'.map Prod.fst → a ∈ taken.map Prod.fst := fun a h => hsub.subset h
  have hnodup : (taken'.map Prod.fst).Nodup := by
    obtain ⟨l, hp, hs⟩ := hsub
    exact hp.nodup_iff.1 (hs.nodup hnd.2.1)
  refine ⟨?_, hvs ▸ hd, h.queue, ?_, fun i => ?_, fun i a hia => ?_, h.own⟩
  · exact h.inQueue.update (fun hs => hnd.2.2 hs ha) n
  · rw [List.map_append, List.nodup_append']
    exact ⟨hnd.1, hnodup, fun a hs ht => hnd.2.2 hs (hsubset a ht)⟩
  · refine (h.push i).update n fun hi => h.apart i node hi ?_
    rw [List.map_append, List.mem_append]
    exact .inr ha
  · have := h.apart i a hia
    rw [List.map_append, List.mem_append, not_or] at this ⊢
    exact ⟨this.1, fun ht => this.2 (hsubset a ht)⟩

omit [DecidableEq ι] in
/-- A step of `drain` that changes no node. -/
theorem drain_moves (h : Rep s b stack taken left) {d : Drain} {vs : List μ} {left' : ℕ}
    (hd : Drains s.nodes d taken vs left') : Rep { s with drain := d } { b with batch := vs } stack taken left' :=
  ⟨h.inQueue, hd, h.queue, h.nodup, h.push, h.apart, h.own⟩

omit [DecidableEq ι] in
/-- `drain` takes the stack when it has nothing left of the last one. -/
theorem drain_takes (h : Rep s b stack [] 0) (hbatch : b.batch = []) :
    Rep { s with head := none, drain := .reversing none s.head } b.take [] (stack ++ [])
      (3 * stack.length + 2 * 0 + 2) := by
  refine ⟨.nil, ?_, rfl, ?_, h.push, fun i a hi => ?_, h.own⟩
  · have hvs : b.take.batch = ((stack.reverse ++ []).map Prod.snd) := by
      simp [Lib.Actor.take, hbatch, h.queue]
    rw [hvs]
    exact .reversing .nil h.inQueue
  · rw [List.nil_append]
    exact h.nodup
  · rw [List.nil_append]
    exact h.apart i a hi

/-- `drain` can always go on, and a drain under way comes nearer to its end. -/
theorem consume (h : Rep s b stack taken left) : ∃ s' es b' stack' taken' left', s.consume = some (s', es) ∧
    b.Run es b' ∧ Rep s' b' stack' taken' left' ∧ (0 < left → left = left' + 1) ∧
      (left' = 0 → ∃ count, .emptied count ∈ es) := by
  have hdrain := h.inDrain
  have hnd := h.nodup
  rw [List.map_append, List.nodup_append'] at hnd
  unfold State.consume
  generalize hd : s.drain = d at hdrain ⊢
  generalize hbatch : b.batch = vs at hdrain
  have hmove : ∀ {d left'}, Drains s.nodes d taken vs left' → Rep { s with drain := d } b stack taken left' := by
    intro d left' hd'
    rw [← hbatch] at hd'
    exact h.drain_moves hd'
  cases hdrain with
  | idle =>
    by_cases hh : s.head = none
    · have hq := h.inQueue
      rw [hh] at hq
      have htake : b.take = b := by
        obtain ⟨state, batch, queue⟩ := b
        have hqueue : queue = [] := by simpa [hq.of_none] using h.queue
        rw [Lib.Actor.take, hqueue, List.append_nil]
      have hrun : b.Run [.taken, .emptied 0] b.take :=
        .cons (.taken hbatch) (.one (.emptied (by rw [htake, hbatch]) 0))
      rw [htake] at hrun
      exact ⟨s, _, b, stack, [], 0, if_pos hh, hrun, h, by simp, fun _ => ⟨0, by simp⟩⟩
    · exact ⟨_, _, b.take, [], _, _, if_neg hh, .one (.taken hbatch), h.drain_takes hbatch, by simp, by simp⟩
  | @reversing prev list done todo hdone htodo =>
    cases list with
    | none =>
      obtain rfl := htodo.of_none
      refine ⟨_, _, b, stack, done, 2 * done.length + 1, rfl, .nil b, ?_, fun _ => ?_, by simp⟩
      · exact hmove (.delivering hdone 0)
      · simp only [List.length_nil]
        omega
    | some a =>
      obtain ⟨n, todo', hn, rfl, hnext⟩ := htodo.of_some
      have hmem : a ∈ (((a, n.value) :: todo') ++ done).map Prod.fst := by simp
      simp only [List.cons_append, List.map_cons, List.nodup_cons, List.map_append, List.mem_append, not_or] at hnd
      refine ⟨{ s.setNode a (some ⟨prev, n.value⟩) with drain := .reversing (some a) n.next }, [], b, stack,
        todo' ++ (a, n.value) :: done, 3 * todo'.length + 2 * (done.length + 1) + 2, ?_, .nil b, ?_, fun _ => ?_, by simp⟩
      · simp [hn]
      · have hstep := h.drain_step hmem
          (.reversing (hdone.push hnd.2.1.1.2 n.value) (hnext.update hnd.2.1.1.1 (some ⟨prev, n.value⟩)))
          (by simpa using List.perm_middle.subperm) (by simp [hbatch])
        exact hstep
      · simp only [List.length_cons]
        omega
  | @delivering prev rest hrest count =>
    cases prev with
    | none =>
      obtain rfl := hrest.of_none
      refine ⟨_, _, b, stack, [], 0, rfl, .one (.emptied hbatch count), ?_, fun _ => rfl, fun _ => ⟨count, by simp⟩⟩
      exact hmove .idle
    | some a =>
      obtain ⟨n, rest', hn, rfl, hnext⟩ := hrest.of_some
      refine ⟨{ s with drain := .calling a n.next count }, [.received n.value],
        { b with batch := rest'.map Prod.snd }, stack, _, 2 * rest'.length + 2, ?_, .one (.received hbatch),
        h.drain_moves (.calling hn hnext count), fun _ => ?_, by simp⟩
      · simp [hn]
      simp only [List.length_cons]
      omega
  | @calling prev next n rest hprev hrest count =>
    simp only [List.map_cons, List.nodup_cons] at hnd
    refine ⟨_, _, b, stack, rest, 2 * rest.length + 1, rfl, .nil b, ?_, fun _ => rfl, by simp⟩
    · have hstep := h.drain_step (by simp) (.delivering (hrest.update hnd.2.1.1 none) (count + 1))
        ((List.sublist_cons_self _ _).map _).subperm hbatch.symm
      exact hstep

variable {self : ι}

/-- The pushes leave `drain` where it is. -/
theorem thread_step {act : Action ι μ} (h : Rep s b stack taken left) (hs : step self s act = some (s', es))
    (hact : act ≠ .drain) : ∃ b' stack', b.Run es b' ∧ Rep s' b' stack' taken left := by
  cases act with
  | call i v node =>
    simp only [step] at hs
    split_ifs at hs with hc
    obtain ⟨rfl, rfl⟩ := Prod.mk.inj (Option.some.inj hs)
    have hb : b.state i = none := by
      have := h.push i
      rw [hc.1] at this
      generalize b.state i = o at this ⊢
      cases this
      rfl
    exact ⟨_, stack, .one (.begun hb v), h.call hc.2.1 v⟩
  | load i =>
    simp only [step] at hs
    split at hs
    · next node hi =>
      obtain ⟨rfl, rfl⟩ := Prod.mk.inj (Option.some.inj hs)
      have hnode : (s.push i).node? = some node := by rw [hi, Push.node?]
      obtain ⟨n, hn, hv⟩ := pending_allocated (h.push i) hnode
      have hstep := h.own_step hnode (p := .loaded node s.head) (fun m hm => hv ▸ .loaded hm s.head) rfl
      rw [State.setNode, ← hn, Function.update_eq_self] at hstep
      exact ⟨b, stack, .nil b, hstep⟩
    · cases hs
  | link i =>
    simp only [step] at hs
    split at hs
    · next node head hi =>
      have hnode : (s.push i).node? = some node := by rw [hi, Push.node?]
      obtain ⟨n, hn, hv⟩ := pending_allocated (h.push i) hnode
      simp only [hn, Option.bind_eq_bind, Option.bind_some] at hs
      obtain ⟨rfl, rfl⟩ := Prod.mk.inj (Option.some.inj hs)
      exact ⟨b, stack, .nil b, h.own_step hnode (fun m hm => hv ▸ .linked hm) rfl⟩
    · cases hs
  | exchange i spurious =>
    simp only [step] at hs
    split at hs
    · next node head hi =>
      split_ifs at hs with hc
      · obtain ⟨n, hn, hv, hrep⟩ := h.exchange hi hc.1
        simp only [hn, Option.bind_eq_bind, Option.bind_some] at hs
        obtain ⟨rfl, rfl⟩ := Prod.mk.inj (Option.some.inj hs)
        exact ⟨_, _, .one (.sent hv), hrep⟩
      · obtain ⟨rfl, rfl⟩ := Prod.mk.inj (Option.some.inj hs)
        have hnode : (s.push i).node? = some node := by rw [hi, Push.node?]
        obtain ⟨n, hn, hv⟩ := pending_allocated (h.push i) hnode
        have hstep := h.own_step hnode (p := .loaded node s.head) (fun m hm => hv ▸ .loaded hm s.head) rfl
        rw [State.setNode, ← hn, Function.update_eq_self] at hstep
        exact ⟨b, stack, .nil b, hstep⟩
    · cases hs
  | drain => exact absurd rfl hact

theorem step {act : Action ι μ} (h : Rep s b stack taken left) (hs : step self s act = some (s', es)) :
    ∃ b' stack' taken' left', b.Run es b' ∧ Rep s' b' stack' taken' left' := by
  by_cases hact : act = .drain
  · rw [hact] at hs
    simp only [MpscQueue.step] at hs
    split_ifs at hs
    obtain ⟨s1, es1, b', stack', taken', left', hc, hrun, hrep, -⟩ := h.consume
    rw [hc] at hs
    obtain ⟨rfl, rfl⟩ := Prod.mk.inj (Option.some.inj hs)
    exact ⟨b', stack', taken', left', hrun, hrep⟩
  · obtain ⟨b', stack', hrun, hrep⟩ := h.thread_step hs hact
    exact ⟨b', stack', taken, left, hrun, hrep⟩

theorem run {acts : List (Action ι μ)} {os : List (List (Mail ι μ))} (h : Rep s b stack taken left)
    (hs : Lib.run (MpscQueue.step self) s acts = some (s', os)) :
    ∃ b' stack' taken' left', b.Run os.flatten b' ∧ Rep s' b' stack' taken' left' := by
  induction acts generalizing s b stack taken left os with
  | nil =>
    obtain ⟨rfl, rfl⟩ := Prod.mk.inj (Option.some.inj hs)
    exact ⟨b, stack, taken, left, .nil b, h⟩
  | cons act acts ih =>
    simp only [Lib.run, Option.bind_eq_bind, Option.bind_eq_some_iff] at hs
    obtain ⟨⟨s1, es⟩, h1, ⟨s2, os2⟩, h2, h3⟩ := hs
    obtain ⟨rfl, rfl⟩ := Prod.mk.inj (Option.some.inj h3)
    obtain ⟨b1, stack1, taken1, left1, hr1, hrep1⟩ := h.step h1
    obtain ⟨b2, stack2, taken2, left2, hr2, hrep2⟩ := ih hrep1 h2
    exact ⟨b2, stack2, taken2, left2, hr1.append hr2, hrep2⟩

end Rep

variable [DecidableEq ι] (self : ι)

end BlazeKV.MpscQueue
