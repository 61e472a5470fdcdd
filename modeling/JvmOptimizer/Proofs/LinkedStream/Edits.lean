import JvmOptimizer.Proofs.LinkedStream.Basic
import JvmOptimizer.Proofs.Steps

/-!
# Edits of linked streams

Following the stored links passes exactly the live nodes, so an edit that
follows them finds what an edit of the plain stream finds, answers the same and
leaves the same nodes (`Agrees.edit_apply`). Whatever edits are made, in whatever
order and whether they succeed or fail, the links stay right, every name is that
of a live node, and there is a way back to a method.

The two relations `Passes` and `Leads` say what it means to follow links,
independent of how far an edit is prepared to follow them.
-/

namespace JvmOptimizer.LinkedStream

open CodeStream (Edit)

variable {a : LinkedStream} {n t id last bound : Nat} {run : List Nat}

/-! ### Following links -/

/-- Following `step` from a node passes these nodes and then ends. -/
inductive Passes (step : Nat → Option Nat) : Option Nat → List Nat → Prop
  | stop : Passes step none []
  | go {id : Nat} {ids : List Nat} : Passes step (step id) ids → Passes step (some id) (id :: ids)

/-- Following `step` from a node leads to `last`, over these nodes. -/
inductive Leads (step : Nat → Option Nat) (last : Nat) : Nat → List Nat → Prop
  | here : Leads step last last [last]
  | go {id next : Nat} {ids : List Nat} :
      step id = some next → Leads step last next ids → Leads step last id (id :: ids)

/-- Following the links finds the nodes that they pass, given enough steps. -/
theorem Passes.follow_eq {start : Option Nat} {ids : List Nat} (h : Passes a.next start ids)
    (hbound : ids.length ≤ bound) : a.follow bound start = ids := by
  induction h generalizing bound with
  | stop => simp [follow]
  | go _ ih =>
      cases bound with
      | zero => simp at hbound
      | succ bound => rw [follow, ih (by simpa using hbound)]

theorem Passes.head? {step : Nat → Option Nat} {start : Option Nat} {ids : List Nat}
    (h : Passes step start ids) : ids.head? = start := by
  cases h <;> rfl

theorem Leads.getLast? {step : Nat → Option Nat} (h : Leads step last n run) :
    run.getLast? = some last := by
  induction h with
  | here => rfl
  | go _ _ ih => rw [List.getLast?_cons, ih, Option.getD_some]

/-- Links that lead over live nodes, over each once, are followed. -/
theorem Leads.runTo_eq (h : Leads a.next last n run) (hlive : ∀ k ∈ run, a.stream.isLive k)
    (hnodup : run.Nodup) (hbound : run.length ≤ bound) : a.runTo last bound (some n) = run := by
  induction h generalizing bound with
  | here =>
      cases bound with
      | zero => simp at hbound
      | succ bound => simp [runTo, hlive last (List.mem_singleton_self last)]
  | @go id next ids hnext hrest ih =>
      cases bound with
      | zero => simp at hbound
      | succ bound =>
          rw [List.forall_mem_cons] at hlive
          rw [List.nodup_cons] at hnodup
          have hne : id ≠ last := fun heq =>
            hnodup.1 (heq ▸ List.mem_of_getLast? hrest.getLast?)
          rw [runTo, if_neg (by simp [hlive.1]), if_neg hne, hnext,
            ih hlive.2 hnodup.2 (by simpa using hbound)]

/-- Where a run ends at the node it was to end at, the links lead over it. -/
theorem leads_of_getLast?_runTo (h : (a.runTo last bound (some n)).getLast? = some last) :
    a.stream.isLive n ∧ Leads a.next last n (a.runTo last bound (some n)) := by
  -- On the bound: a walk that ends at `last` was at `last`, or went on to a node from
  -- which the rest ends there.
  induction bound generalizing n with
  | zero => simp [runTo] at h
  | succ bound ih =>
      rw [runTo] at h ⊢
      by_cases hn : a.stream.isLive n
      case neg => simp [hn] at h
      simp only [hn, Bool.not_true, Bool.false_eq_true, if_false, true_and] at h ⊢
      split at h
      · rename_i heq
        rw [if_pos heq, heq]
        exact .here
      · rename_i hne
        rw [if_neg hne]
        cases hnext : a.next n with
        | none =>
            -- Without a link the walk ends at `n`, which is not `last`.
            rw [hnext] at h
            simp [runTo, hne] at h
        | some t =>
            rw [hnext, List.getLast?_cons, Option.some_inj] at h
            cases hrest : (a.runTo last bound (some t)).getLast? with
            | none =>
                rw [hrest] at h
                exact absurd h hne
            | some k =>
                rw [hrest, Option.getD_some] at h
                exact .go hnext (ih (h ▸ hrest)).2

namespace Agrees

variable (h : a.Agrees)

include h

/-- The link is what a search through the nodes would find. -/
theorem next_eq (n : Nat) : a.next n = a.stream.next? n :=
  Option.ext fun t => (h.next n t).trans CodeStream.next?_eq_some_iff_adjacent.symm

theorem prev_eq (n : Nat) : a.prev n = a.stream.prev? n :=
  Option.ext fun t => (h.prev t n).trans CodeStream.prev?_eq_some_iff_adjacent.symm

theorem head_eq : a.head = a.stream.firstFrom 0 :=
  Option.ext fun n => (h.head n).trans CodeStream.firstFrom_zero_eq_some_iff.symm

theorem tail_eq : a.tail = a.stream.lastBefore a.stream.nodes.size :=
  Option.ext fun n => (h.tail n).trans CodeStream.lastBefore_size_eq_some_iff.symm

/-- From any point on the forward links pass all live nodes, in the order of the
array. -/
theorem passes_firstFrom (hbound : a.stream.nodes.size ≤ t + bound) :
    Passes a.next (a.stream.firstFrom t) (a.stream.ids.filter (t ≤ ·)) := by
  -- By induction on the number of nodes from `t` on.
  induction bound generalizing t with
  | zero =>
      have hnone : a.stream.firstFrom t = none :=
        CodeStream.firstFrom_eq_none_iff.2 fun k hk hl => by
          have := CodeStream.lt_size_of_isLive hl
          omega
      rw [CodeStream.filter_ids_eq_nil hnone, hnone]
      exact .stop
  | succ bound ih =>
      cases hf : a.stream.firstFrom t with
      | none =>
          rw [CodeStream.filter_ids_eq_nil hf]
          exact .stop
      | some n =>
          obtain ⟨htn, hn, -⟩ := CodeStream.firstFrom_eq_some_iff.1 hf
          rw [CodeStream.filter_ids_eq_cons hf]
          refine .go ?_
          rw [h.next_eq, CodeStream.next?_eq hn]
          exact ih (by omega)

/-- **Following the links from the head** passes the live nodes in order. -/
theorem passes_next : Passes a.next a.head a.stream.ids := by
  have hbound : a.stream.nodes.size ≤ 0 + a.stream.nodes.size := by omega
  have hpasses := h.passes_firstFrom hbound
  rw [h.head_eq]
  simpa using hpasses

/-- **Following the links back from the tail** passes them the other way
round. -/
theorem passes_prev : Passes a.prev a.tail a.stream.ids.reverse := by
  have hpasses : ∀ t, Passes a.prev (a.stream.lastBefore t)
      ((List.range t).filter a.stream.isLive).reverse := by
    intro t
    induction t with
    | zero => exact .stop
    | succ t ih =>
        rw [List.range_succ, List.filter_append, List.reverse_append, CodeStream.lastBefore]
        by_cases ht : a.stream.isLive t
        · rw [if_pos ht, List.filter_cons_of_pos ht]
          refine .go ?_
          rw [h.prev_eq, CodeStream.prev?, if_pos ht]
          exact ih
        · rw [if_neg ht, List.filter_cons_of_neg ht]
          exact ih
  rw [h.tail_eq]
  exact hpasses a.stream.nodes.size

/-- A walk along the links lists the live nodes, as a pass over the array does. -/
theorem ids_eq : a.ids = a.stream.ids := by
  refine h.passes_next.follow_eq ?_
  rw [h.size, CodeStream.ids]
  exact (List.length_filter_le _ _).trans_eq List.length_range

/-- The nodes over which the links lead from one live node to another are the
run of the stream. -/
theorem leads_iff (hn : a.stream.isLive n) :
    Leads a.next last n run ↔ a.stream.run? n last = some run := by
  rw [CodeStream.run?_eq_some_iff]
  constructor
  · intro hleads
    induction hleads with
    | here => exact ⟨hn, hn, le_rfl, (CodeStream.filter_ids_eq_singleton hn).symm⟩
    | @go id next ids hnext _ ih =>
        have hadj := (h.next id next).1 hnext
        obtain ⟨-, hlast, hle, rfl⟩ := ih hadj.2.1
        have hid : id ≤ last := hadj.2.2.1.le.trans hle
        exact ⟨hn, hlast, hid, (CodeStream.filter_ids_of_adjacent hadj hid).symm⟩
  · rintro ⟨-, hlast, hle, rfl⟩
    -- By induction on the distance: the neighbour of `n` is nearer to `last`.
    induction hd : last - n using Nat.strong_induction_on generalizing n with
    | _ d ih =>
        rcases Nat.eq_or_lt_of_le hle with rfl | hlt
        · rw [CodeStream.filter_ids_eq_singleton hlast]
          exact .here
        · cases hnext : a.stream.next? n with
          | none =>
              have hend := (CodeStream.isLast_iff.2 ⟨hn, hnext⟩).2
              exact absurd hlast (hend last hlt (CodeStream.lt_size_of_isLive hlast))
          | some t =>
              have hadj := CodeStream.next?_eq_some_iff_adjacent.1 hnext
              obtain ⟨-, ht, hnt, hclear⟩ := id hadj
              have htl : t ≤ last := by
                by_contra hgt
                exact hclear last hlt (by omega) hlast
              rw [CodeStream.filter_ids_of_adjacent hadj hle]
              exact .go ((h.next n t).2 hadj) (ih (last - t) (by omega) ht htl rfl)

/-- **The run between two nodes**, followed along the links, is that of the
stream. -/
theorem run?_eq (first last : Nat) : a.stream.run? first last =
    Option.guard (fun run => run.getLast? = some last)
      (a.runTo last a.links.size (some first)) := by
  refine Option.ext fun run => ?_
  rw [Option.guard_eq_some_iff, decide_eq_true_eq]
  constructor
  · intro hrun
    obtain ⟨hfirst, -, -, hids⟩ := CodeStream.run?_eq_some_iff.1 hrun
    have hleads := (h.leads_iff hfirst).2 hrun
    have hlength : run.length ≤ a.links.size := by
      rw [hids, h.size, CodeStream.ids]
      exact (List.length_filter_le _ _).trans
        ((List.length_filter_le _ _).trans_eq List.length_range)
    have hlive : ∀ k ∈ run, a.stream.isLive k := by
      intro k hk
      rw [hids] at hk
      exact CodeStream.mem_ids.1 (List.mem_filter.1 hk).1
    have hnodup : run.Nodup := hids ▸ CodeStream.nodup_ids.filter _
    rw [hleads.runTo_eq hlive hnodup hlength]
    exact ⟨rfl, hleads.getLast?⟩
  · rintro ⟨rfl, hlast⟩
    obtain ⟨hfirst, hleads⟩ := leads_of_getLast?_runTo hlast
    exact (h.leads_iff hfirst).1 hleads

/-- Whether a node is a target is decided alike on both sides: both look at all
live nodes. -/
theorem isTargeted_eq (id : Nat) : a.isTargeted id = a.stream.isTargeted id := by
  rw [Bool.eq_iff_iff, CodeStream.isTargeted_iff]
  simp [isTargeted, h.ids_eq]

theorem referenceInto?_eq (run : List Nat) :
    a.referenceInto? run = a.stream.referenceInto? run := by
  rw [referenceInto?, h.ids_eq, CodeStream.referenceInto?]

end Agrees

/-! ### Edits -/

/-- Unlinking nodes one after another keeps the two sides together. The nodes are
distinct, so each is still there when its turn comes. -/
theorem Agrees.foldl_unlink {ids : List Nat} (h : a.Agrees) (hnodup : ids.Nodup)
    (hlive : ∀ id ∈ ids, a.stream.isLive id) : (ids.foldl LinkedStream.unlink a).Agrees ∧
      (ids.foldl LinkedStream.unlink a).stream = ids.foldl CodeStream.unlink a.stream := by
  induction ids generalizing a with
  | nil => exact ⟨h, rfl⟩
  | cons id ids ih =>
      rw [List.nodup_cons] at hnodup
      rw [List.forall_mem_cons] at hlive
      rw [List.foldl_cons, List.foldl_cons, ← stream_unlink]
      refine ih (h.unlink hlive.1) hnodup.2 fun k hk => ?_
      have hne : k ≠ id := fun heq => hnodup.1 (heq ▸ hk)
      rw [stream_unlink, CodeStream.isLive_unlink]
      simp [hlive.2 k hk, hne]

/-- **Deleting a node** of a linked stream is deleting it from the stream. -/
theorem Agrees.deleteOne_apply (h : a.Agrees) (id : Nat) :
    (∃ e, a.stream.deleteOne id = .error e ∧ deleteOne id a = (.error e, a)) ∨
    ∃ b, a.stream.deleteOne id = .ok b.stream ∧ deleteOne id a = (.ok (), b) ∧ b.Agrees := by
  by_cases hid : a.stream.isLive id
  case neg =>
    -- A dead node: nothing is done.
    refine .inr ⟨a, CodeStream.deleteOne_of_not_isLive hid, ?_, h⟩
    simp [deleteOne, Steps.bind_apply, hid]
  cases hnext : a.stream.next? id with
  | some successor =>
      -- The references go to the successor, which concerns no link.
      have hagrees := h.congr (s := a.stream.redirect id successor) CodeStream.size_redirect
        fun _ => CodeStream.isLive_redirect
      have hlive : (a.stream.redirect id successor).isLive id := by simpa using hid
      refine .inr ⟨_, ?_, ?_, hagrees.unlink hlive⟩
      · simp [CodeStream.deleteOne, hid, hnext, stream_unlink]
      · simp [deleteOne, Steps.bind_apply, hid, h.next_eq, hnext]
  | none =>
      -- The last node: a reference to it cannot be moved.
      by_cases ht : a.stream.isTargeted id
      · refine .inl ⟨⟨id⟩, ?_, ?_⟩
        · simp [CodeStream.deleteOne, hid, hnext, ht]
        · simp [deleteOne, Steps.bind_apply, hid, h.next_eq, hnext, h.isTargeted_eq, ht]
      · have hagrees := h.congr
          (s := { a.stream with handlers := a.stream.handlersWithoutLast id }) rfl fun _ => rfl
        have hlive : ({ a.stream with
            handlers := a.stream.handlersWithoutLast id } : CodeStream).isLive id := hid
        refine .inr ⟨_, ?_, ?_, hagrees.unlink hlive⟩
        · simp [CodeStream.deleteOne, hid, hnext, ht, stream_unlink]
        · simp [deleteOne, Steps.bind_apply, hid, h.next_eq, hnext, h.isTargeted_eq, ht]

/-- **Deleting a run** of a linked stream is deleting it from the stream. -/
theorem Agrees.deleteRange_apply (h : a.Agrees) (first last : Nat) :
    (∃ e, a.stream.deleteRange first last = .error e ∧ deleteRange first last a = (.error e, a)) ∨
    ∃ count b, a.stream.deleteRange first last = .ok (count, b.stream) ∧
      deleteRange first last a = (.ok count, b) ∧ b.Agrees := by
  have hrun := h.run?_eq first last
  rw [Option.guard] at hrun
  by_cases hlast : (a.runTo last a.links.size (some first)).getLast? = some last
  case neg =>
    -- The walk does not end at `last`: there is no such run on either side.
    rw [if_neg (by simpa using hlast)] at hrun
    refine .inl ⟨⟨first⟩, ?_, ?_⟩
    · simp [CodeStream.deleteRange, hrun]
    · simp [deleteRange, Steps.bind_apply, hlast]
  rw [if_pos (by simpa using hlast)] at hrun
  -- The walk gives the members of the run, so both sides ask the same questions of the
  -- same list.
  generalize hmembers : a.runTo last a.links.size (some first) = run at hlast hrun
  obtain ⟨-, -, -, hids⟩ := CodeStream.run?_eq_some_iff.1 hrun
  cases href : a.stream.referenceInto? run with
  | some node =>
      refine .inl ⟨⟨node⟩, ?_, ?_⟩
      · simp [CodeStream.deleteRange, hrun, href]
      · simp [deleteRange, Steps.bind_apply, hmembers, hlast, h.referenceInto?_eq, href]
  | none =>
      have hagrees := h.congr
        (s := { a.stream with handlers := a.stream.handlersWithout run (a.stream.next? last) })
        rfl fun _ => rfl
      -- Nothing refers into the run, which goes node by node.
      have hnodup : run.Nodup := hids ▸ CodeStream.nodup_ids.filter _
      obtain ⟨hagrees, hstream⟩ := hagrees.foldl_unlink hnodup
        (by
          intro id hid
          rw [hids] at hid
          exact CodeStream.mem_ids.1 (List.mem_filter.1 hid).1)
      refine .inr ⟨run.length, _, ?_, ?_, hagrees⟩
      · simp [CodeStream.deleteRange, hrun, href, hstream]
      · simp [deleteRange, Steps.bind_apply, hmembers, hlast, h.referenceInto?_eq, href, h.next_eq]
        rfl

/-- Numbering along a list of nodes gives each its place in the list and leaves
the others alone. -/
theorem getElem?_foldl_setPosition {ids : List Nat} (hnodup : ids.Nodup) (nodes : Array Node)
    (k n : Nat) : ((ids.zipIdx k).foldl setPosition nodes)[n]? = nodes[n]?.map fun node =>
      if n ∈ ids then { node with position := k + ids.idxOf n } else node := by
  induction ids generalizing nodes k with
  | nil => simp
  | cons id ids ih =>
      rw [List.nodup_cons] at hnodup
      rw [List.zipIdx_cons, List.foldl_cons, ih hnodup.2, setPosition, Array.getElem?_modify]
      by_cases heq : id = n
      · subst heq
        cases nodes[id]? <;> simp [hnodup.1]
      · rw [if_neg heq, List.idxOf_cons_ne _ heq]
        cases nodes[n]? with
        | none => rfl
        | some node =>
            simp only [Option.map_some, List.mem_cons, Ne.symm heq, false_or]
            split
            · simp only [Node.mk.injEq, Option.some.injEq, true_and, and_true]
              omega
            · rfl

/-- **Renumbering** along the links is renumbering the stream. -/
theorem Agrees.stream_renumber (h : a.Agrees) : a.renumber.stream = a.stream.renumber := by
  have hnodes : a.renumber.stream.nodes = a.stream.renumber.nodes := by
    apply Array.ext_getElem?
    intro n
    rw [renumber, h.ids_eq, getElem?_foldl_setPosition CodeStream.nodup_ids,
      CodeStream.getElem?_renumber]
    by_cases hn : n < a.stream.nodes.size
    · have hlive : a.stream.nodes[n].live = a.stream.isLive n := by simp [CodeStream.isLive, hn]
      simp only [hn, Array.getElem?_eq_getElem, Option.map_some, CodeStream.mem_ids, hlive,
        CodeStream.countP_take_eq_rank hn.le]
      split
      · rename_i hl
        rw [CodeStream.idxOf_ids hl, Nat.zero_add]
      · rfl
    · simp [hn]
  exact congrArg (fun nodes => (⟨nodes, a.stream.handlers⟩ : CodeStream)) hnodes

/-- **One edit** of a linked stream is that edit of the stream; where it fails,
nothing has changed. -/
theorem Agrees.edit_apply (h : a.Agrees) (e : Edit) :
    (∃ err, a.stream.edit e = .error err ∧ edit e a = (.error err, a)) ∨
    ∃ b, a.stream.edit e = .ok b.stream ∧ edit e a = (.ok (), b) ∧ b.Agrees := by
  cases e with
  | deleteOne id => exact h.deleteOne_apply id
  | deleteRange first last =>
      rcases h.deleteRange_apply first last with ⟨err, hs, hd⟩ | ⟨count, b, hs, hd, hb⟩
      · refine .inl ⟨err, ?_, ?_⟩
        · rw [CodeStream.edit, hs]
          rfl
        · rw [edit, Steps.bind_apply, hd]
      · refine .inr ⟨b, ?_, ?_, hb⟩
        · rw [CodeStream.edit, hs]
          rfl
        · rw [edit, Steps.bind_apply, hd]
          rfl
  | renumber =>
      refine .inr ⟨a.renumber, ?_, rfl, ?_⟩
      · rw [h.stream_renumber]
        rfl
      · have hagrees := h.congr CodeStream.size_renumber fun _ => CodeStream.isLive_renumber
        rwa [← h.stream_renumber] at hagrees
  | replace id insn =>
      exact .inr ⟨_, rfl, rfl,
        h.congr CodeStream.size_replace fun _ => CodeStream.isLive_replace⟩

/-! ### Every linked stream that is reached -/

/-- The linked streams that edits make of a method, whether they succeed or
fail. -/
inductive Reached (m : Method) : LinkedStream → Prop
  | ofMethod {a : LinkedStream} : LinkedStream.ofMethod m = .ok a → Reached m a
  | edit {a : LinkedStream} (e : Edit) :
      Reached m a → e.IsAllowed a.stream → Reached m (LinkedStream.edit e a).2

/-- The links of every linked stream that is reached say what its nodes say, and
its nodes are reached by plain edits. -/
theorem Reached.agrees {m : Method} (h : Reached m a) :
    a.Agrees ∧ CodeStream.Reached m a.stream := by
  induction h with
  | ofMethod h =>
      obtain ⟨hs, hagrees⟩ := ofMethod_eq_ok h
      exact ⟨hagrees, .ofMethod hs⟩
  | edit e _ he ih =>
      obtain ⟨hagrees, hreached⟩ := ih
      rcases hagrees.edit_apply e with ⟨err, -, ha⟩ | ⟨b, hs, hb, hagrees⟩
      · rw [ha]
        exact ⟨hagrees, hreached⟩
      · rw [hb]
        exact ⟨hagrees, hreached.edit e he hs⟩

/-- Following the links from the head visits the live nodes, each once and at
ascending positions, and following them back from the tail visits them the other
way round. -/
def IsLinked (a : LinkedStream) : Prop :=
  ∃ ids : List Nat, Passes a.next a.head ids ∧ Passes a.prev a.tail ids.reverse ∧
    ids.Nodup ∧ (∀ n, n ∈ ids ↔ a.stream.isLive n) ∧ a.tail = ids.getLast? ∧
    a.count = ids.length ∧ ids.Pairwise fun n t => a.stream.position n < a.stream.position t

theorem Reached.isLinked {m : Method} (h : Reached m a) : a.IsLinked := by
  obtain ⟨hagrees, hreached⟩ := h.agrees
  have htail := hagrees.passes_prev.head?
  rw [List.head?_reverse] at htail
  refine ⟨a.stream.ids, hagrees.passes_next, hagrees.passes_prev, CodeStream.nodup_ids,
    fun n => CodeStream.mem_ids, htail.symm, hagrees.count, ?_⟩
  refine CodeStream.pairwise_ids.imp_of_mem fun hn ht hlt => ?_
  exact hreached.isAscending (CodeStream.mem_ids.1 hn) (CodeStream.mem_ids.1 ht) hlt

/-- A node is not deleted if it is the last one and something leads to it. -/
theorem Agrees.deleteOne_eq_error_iff (h : a.Agrees) (id : Nat) :
    (∃ e, (deleteOne id a).1 = .error e) ↔ a.stream.isLive id ∧ a.tail = some id ∧
      ((∃ r ∈ a.stream.handlers, r.entry = id) ∨
        ∃ k, a.stream.isLive k ∧ k ≠ id ∧ id ∈ a.stream.targets k) := by
  rw [h.tail, CodeStream.isLast_iff, ← CodeStream.isHandlerEntry_iff, ← CodeStream.isTargeted_iff]
  have hfails : (∃ e, (deleteOne id a).1 = .error e) ↔ ∃ e, a.stream.deleteOne id = .error e := by
    rcases h.deleteOne_apply id with ⟨e, hs, ha⟩ | ⟨b, hs, ha, -⟩ <;> simp [hs, ha]
  rw [hfails, CodeStream.deleteOne]
  by_cases hid : a.stream.isLive id
  · cases hnext : a.stream.next? id with
    | none => by_cases ht : a.stream.isTargeted id <;> simp [hid, ht]
    | some t => simp [hid]
  · simp [hid]

/-- A run is not deleted if the links do not lead over it, or if something
outside leads into it. -/
theorem Agrees.deleteRange_eq_error_iff (h : a.Agrees) (first last : Nat) :
    (∃ e, (deleteRange first last a).1 = .error e) ↔
      ¬ (a.stream.isLive first ∧ ∃ run, Leads a.next last first run) ∨
      a.stream.isLive first ∧ ∃ run, Leads a.next last first run ∧
        ((∃ n t, a.stream.isLive n ∧ n ∉ run ∧ t ∈ a.stream.targets n ∧ t ∈ run) ∨
          ∃ r ∈ a.stream.handlers, r.entry ∈ run) := by
  -- A statement about the stream, where a run is a list and not a walk.
  have hfails : (∃ e, (deleteRange first last a).1 = .error e) ↔
      ∃ e, a.stream.deleteRange first last = .error e := by
    rcases h.deleteRange_apply first last with ⟨e, hs, ha⟩ | ⟨count, b, hs, ha, -⟩ <;> simp [hs, ha]
  have hleads : ∀ run, a.stream.isLive first ∧ Leads a.next last first run ↔
      a.stream.run? first last = some run := by
    intro run
    constructor
    · exact fun hrun => (h.leads_iff hrun.1).1 hrun.2
    · intro hrun
      have hfirst := (CodeStream.run?_eq_some_iff.1 hrun).1
      exact ⟨hfirst, (h.leads_iff hfirst).2 hrun⟩
  simp only [hfails, ← exists_and_left, ← and_assoc, hleads]
  rw [CodeStream.deleteRange]
  cases hrun : a.stream.run? first last with
  | none => simp
  | some run =>
      -- The run is there, so the refusal is a reference into it.
      have hinto : a.stream.referenceInto? run ≠ none ↔
          (∃ n t, ((a.stream.isLive n ∧ n ∉ run) ∧ t ∈ a.stream.targets n) ∧ t ∈ run) ∨
            ∃ r ∈ a.stream.handlers, r.entry ∈ run := by
        rw [ne_eq, CodeStream.referenceInto?_eq_none_iff]
        grind
      cases href : a.stream.referenceInto? run with
      | none => simpa [href] using hinto
      | some node => simpa [href] using hinto

/-- **The invariant of linked streams.** In whatever order a method is edited,
and whether the edits succeed or fail: following the links from the head visits
exactly the live nodes, the links back undo the links on, both are what the
stream finds by itself, every name is that of a live node, and there is a way
back to a method. A node is not deleted exactly if it is the last one and
something leads to it, and a run is not deleted exactly if it is none, or
something outside leads into it; an edit that fails changes nothing. -/
theorem representation_of_reached {m : Method} (h : Reached m a) :
    a.IsLinked ∧ (∀ n t, a.next n = some t ↔ a.prev t = some n) ∧
    (∀ n, a.next n = a.stream.next? n ∧ a.prev n = a.stream.prev? n) ∧ a.stream.IsClosed ∧
    (∀ template, ∃ flat, a.stream.toMethod template = .ok flat) ∧
    (∀ id, (∃ e, (deleteOne id a).1 = .error e) ↔
      a.stream.isLive id ∧ a.tail = some id ∧ ((∃ r ∈ a.stream.handlers, r.entry = id) ∨
        ∃ k, a.stream.isLive k ∧ k ≠ id ∧ id ∈ a.stream.targets k)) ∧
    (∀ first last, (∃ e, (deleteRange first last a).1 = .error e) ↔
      ¬ (a.stream.isLive first ∧ ∃ run, Leads a.next last first run) ∨
      a.stream.isLive first ∧ ∃ run, Leads a.next last first run ∧
        ((∃ n t, a.stream.isLive n ∧ n ∉ run ∧ t ∈ a.stream.targets n ∧ t ∈ run) ∨
          ∃ r ∈ a.stream.handlers, r.entry ∈ run)) ∧
    ∀ e : Edit, (edit e a).1 = (a.stream.edit e).map (fun _ => ()) ∧
      (edit e a).2.stream = (a.stream.edit e).toOption.getD a.stream ∧
      ∀ err, (edit e a).1 = .error err → (edit e a).2 = a := by
  obtain ⟨hagrees, hreached⟩ := h.agrees
  have hclosed := hreached.isClosed
  refine ⟨h.isLinked, fun n t => (hagrees.next n t).trans (hagrees.prev n t).symm,
    fun n => ⟨hagrees.next_eq n, hagrees.prev_eq n⟩, hclosed,
    fun template => ⟨_, hclosed.toMethod template⟩, hagrees.deleteOne_eq_error_iff,
    hagrees.deleteRange_eq_error_iff, fun e => ?_⟩
  rcases hagrees.edit_apply e with ⟨err, hs, ha⟩ | ⟨b, hs, hb, -⟩
  · rw [hs, ha]
    exact ⟨rfl, rfl, fun _ _ => rfl⟩
  · rw [hs, hb]
    refine ⟨rfl, rfl, fun err herr => ?_⟩
    cases herr

/-- A loop over two idle instructions, protected to the end by a handler that is
its last instruction. -/
def idleLoop : Method where
  code := [.jump 2, .verbatim 0x00 [], .verbatim 0x00 [], .jump 1]
  handlers := [⟨0, 9, 3, 0⟩]

/-- The linked stream of the loop. -/
def idleLinks : LinkedStream :=
  (ofMethod idleLoop).toOption.getD ⟨⟨#[], []⟩, #[], none, none, 0⟩

theorem ofMethod_idleLoop : ofMethod idleLoop = .ok idleLinks := by
  have hok : (ofMethod idleLoop).isOk := by decide +kernel
  rw [idleLinks]
  cases h : ofMethod idleLoop with
  | error e =>
      rw [h] at hok
      cases hok
  | ok a => rfl

/-- The last node cannot go, the run of the second node neither, and the second
node alone hands the jump to it over to the third. -/
theorem representation_of_reached_idleLoop :
    let edits : List Edit :=
      [.deleteOne 3, .deleteRange 1 1, .deleteOne 1, .renumber, .replace 2 (.jump 0)]
    let a := edits.foldl (fun a e => (edit e a).2) idleLinks
    Reached idleLoop a ∧ a.ids = [0, 2, 3] ∧ a.stream.targets 3 = [2] ∧ a.IsLinked ∧
      a.stream.IsClosed ∧ ∃ e, (deleteOne 3 a).1 = .error e := by
  intro edits a
  have hreached : Reached idleLoop a := by
    refine .edit _ (.edit _ (.edit _ (.edit _ (.edit _
      (.ofMethod ofMethod_idleLoop) ?_) ?_) ?_) ?_) ?_
    · trivial
    · trivial
    · trivial
    · trivial
    · intro t ht
      cases List.mem_singleton.1 ht
      decide +kernel
  obtain ⟨hlinked, -, -, hclosed, -, hone, -⟩ := representation_of_reached hreached
  refine ⟨hreached, by decide +kernel, by decide +kernel, hlinked, hclosed, (hone 3).2 ?_⟩
  refine ⟨by decide +kernel, by decide +kernel, .inl ⟨⟨0, none, 3, 0⟩, ?_, rfl⟩⟩
  decide +kernel

end JvmOptimizer.LinkedStream
