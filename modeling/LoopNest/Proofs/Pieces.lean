import LoopNest.Proofs.Recovery
import LoopNest.Schedule.Flat

/-! A walk goes to the first branch that takes the instance. The pieces of a statement are all the
ways that its instances may go, in order, each with the conditions that its filters lay down. The
first piece whose conditions hold at an instance is the way of that instance, so its dimensions are
the time stamp. -/

namespace LoopNest

/-- The condition holds at an instance: in a full tile there is a guard, and it holds. -/
def FlatCondition.holds (x : Iteration) (condition : FlatCondition) : Bool :=
  match condition.kind with
  | .full => condition.guard.any (·.admits x)
  | .partly => !condition.guard.any (·.admits x)

def FlatDim.eval (point params : List Int) : FlatDim → Checked Int
  | .expr e => e.eval point params
  | .position index => .ok index

namespace Piece

def holds (x : Iteration) (piece : Piece) : Bool := piece.conditions.all (·.holds x)

def eval (piece : Piece) (point params : List Int) : Checked (List Int) :=
  piece.dims.mapM (·.eval point params)

end Piece

/-- A filter lets an instance through if it may do so for its statement and its conditions hold. -/
theorem Filter.admits_eq (x : Iteration) (filter : Filter) :
    filter.admits x = (filter.mayPass x.stmt && (filter.conditions x.stmt).all (·.holds x)) := by
  cases filter with
  | statements stmts => simp [admits, mayPass, conditions]
  | tiles t =>
    cases kind : t.kind <;> cases guard : t.guard? x.stmt <;>
      simp [admits, mayPass, conditions, FlatCondition.holds, TileFilter.isFull, kind, guard]

def NodeKind.mayPass (stmt : Nat) : NodeKind → Bool
  | .filter f => f.mayPass stmt
  | _ => true

/-- What a piece becomes on the way through a node to the child at a position. -/
def NodeKind.extend (stmt position : Nat) (piece : Piece) : NodeKind → Piece
  | .band b => { piece with dims := piece.dims ++ ((b.schedule.get? stmt).getD []).map .expr }
  | .filter f => { piece with conditions := piece.conditions ++ f.conditions stmt }
  | .sequence | .set => piece.branch position
  | .domain _ | .leaf => piece

theorem NodeKind.holds_of_extend {x : Iteration} {stmt position : Nat} {piece : Piece}
    {kind : NodeKind} (h : (kind.extend stmt position piece).holds x = true) :
    piece.holds x = true := by
  cases kind with
  | filter filter =>
    simp only [extend, Piece.holds, List.all_append, Bool.and_eq_true] at h
    exact h.1
  | _ => exact h

namespace Tree

variable {x : Iteration} {id arity : Nat} {kind : NodeKind} {child : Fin arity → Tree}
  {start piece : Piece}

/-- The pieces below an inner node are those of its children, one child after the other. -/
theorem pieces_node (stmt : Nat) (inner : kind ≠ .leaf) :
    (node id kind arity child).pieces stmt start =
      if kind.mayPass stmt then
        (List.finRange arity).flatMap fun i => (child i).pieces stmt (kind.extend stmt i start)
      else [] := by
  cases kind with
  | leaf => exact absurd rfl inner
  | _ => rfl

/-- The way to a child through a node is followed by the pieces of the child. -/
theorem mem_pieces_node {stmt : Nat} (inner : kind ≠ .leaf)
    (member : piece ∈ (node id kind arity child).pieces stmt start) :
    kind.mayPass stmt = true ∧
      ∃ i, piece ∈ (child i).pieces stmt (kind.extend stmt i.val start) := by
  rw [pieces_node stmt inner] at member
  split at member
  · rename_i passes
    obtain ⟨i, -, member⟩ := List.mem_flatMap.mp member
    exact ⟨passes, i, member⟩
  · simp at member

/-- Conditions are added on the way down, and none is dropped. -/
theorem holds_of_mem_pieces {stmt : Nat} {t : Tree} (member : piece ∈ t.pieces stmt start)
    (h : piece.holds x = true) : start.holds x = true := by
  induction t generalizing start with
  | missing => simp [pieces] at member
  | node id kind arity child ih =>
    by_cases leaf : kind = .leaf
    · subst leaf
      obtain rfl : piece = start := by simpa [pieces] using member
      exact h
    · obtain ⟨-, i, member⟩ := mem_pieces_node leaf member
      exact NodeKind.holds_of_extend (ih i member)

/-- A branch that does not take an instance has no piece whose conditions hold there. -/
theorem not_holds_of_not_admits {t : Tree} (member : piece ∈ t.pieces x.stmt start)
    (refused : t.admits x = false) : piece.holds x = false := by
  cases t with
  | missing => simp [pieces] at member
  | node id kind arity child =>
    cases kind with
    | filter filter =>
      obtain ⟨passes, i, member⟩ := mem_pieces_node (by simp) member
      by_contra h
      have after := holds_of_mem_pieces member (by simpa using h)
      simp only [NodeKind.extend, Piece.holds, List.all_append, Bool.and_eq_true] at after
      rw [admits, Filter.admits_eq, Bool.and_eq_false_iff] at refused
      simp_all [NodeKind.mayPass]
    | _ => simp [admits] at refused

/-- The children before the one to which a way goes on do not take the instance. -/
theorem before_of_onward {entries : List Int} {i : Fin arity}
    (h : onward x child kind = some (entries, some i)) :
    ∃ before after, List.finRange arity = before ++ i :: after ∧
      ∀ j ∈ before, (child j).admits x = false := by
  have only : first arity = some i → ∃ before after,
      List.finRange arity = before ++ i :: after ∧ ∀ j ∈ before, (child j).admits x = false := by
    intro head
    obtain ⟨after, split⟩ := List.head?_eq_some_iff.mp head
    exact ⟨[], after, split, by simp⟩
  have chosen : (List.finRange arity).find? (fun i => (child i).admits x) = some i →
      ∃ before after, List.finRange arity = before ++ i :: after ∧
        ∀ j ∈ before, (child j).admits x = false := by
    intro found
    obtain ⟨-, before, after, split, refused⟩ := List.find?_eq_some_iff_append.mp found
    exact ⟨before, after, split, by simpa using refused⟩
  cases kind with
  | domain => exact only (by simp_all [onward])
  | band =>
    obtain ⟨_, -, same⟩ := Option.map_eq_some_iff.mp h
    exact only (Prod.mk.inj same).2
  | filter => exact only (by simp_all [onward])
  | sequence => exact chosen (by simp_all [onward])
  | set => exact chosen (by simp_all [onward])
  | leaf => simp [onward] at h

end Tree

namespace Tree

variable {x : Iteration} {id arity : Nat} {kind : NodeKind} {child : Fin arity → Tree}
  {start : Piece}

/-- The walk down a tree starts with a step, and ends there or goes on in a child. -/
theorem visits_run {stmt : Nat} {point params : List Int} {visits : List Visit}
    (h : ((node id kind arity child).visits stmt point params).run = .ok (.ok visits)) :
    ∃ entries later, visits = ⟨id, entries⟩ :: later ∧
      ((step child stmt point params kind).run = .ok (.ok (entries, none)) ∧ later = [] ∨
        ∃ i, (step child stmt point params kind).run = .ok (.ok (entries, some i)) ∧
          ((child i).visits stmt point params).run = .ok (.ok later)) := by
  rw [Tree.visits] at h
  rcases Eval.run_bind_ok h with ⟨_, _, ⟨⟩⟩ | ⟨⟨entries, next?⟩, stepped, h⟩
  cases next? with
  | none =>
    cases h
    exact ⟨entries, [], rfl, .inl ⟨stepped, rfl⟩⟩
  | some i =>
    rcases Eval.run_bind_ok h with ⟨_, _, ⟨⟩⟩ | ⟨later, below, h⟩
    cases h
    exact ⟨entries, later, rfl, .inr ⟨i, stepped, below⟩⟩

/-- A step to a child extends a piece by dimensions that give the entries of the step, and by
conditions that hold. -/
theorem extend_of_step {entries : List Int} {i : Fin arity}
    (h : (step child x.stmt x.point x.params kind).run = .ok (.ok (entries, some i)))
    (holds : start.holds x = true) :
    kind.mayPass x.stmt = true ∧ (kind.extend x.stmt i start).holds x = true ∧
      ∃ dims, (kind.extend x.stmt i start).dims = start.dims ++ dims ∧
        dims.mapM (·.eval x.point x.params) = .ok entries := by
  have exact := (step_agrees child x kind).eq_some h
  cases kind with
  | domain domains =>
    obtain rfl : [] = entries := (Prod.mk.inj (Option.some.inj exact)).1
    exact ⟨rfl, holds, [], by simp [NodeKind.extend], rfl⟩
  | band band =>
    rw [step] at h
    cases found : band.schedule.get? x.stmt with
    | none => simp [onward, found] at exact
    | some exprs =>
      rw [found] at h
      rcases Eval.run_bind_ok h with ⟨_, _, ⟨⟩⟩ | ⟨values, evaluated, h⟩
      obtain rfl : values = entries := (Prod.mk.inj (Except.ok.inj (Except.ok.inj h))).1
      refine ⟨rfl, holds, exprs.map .expr, by simp [NodeKind.extend, found], ?_⟩
      rw [List.mapM_map]
      exact Eval.mapM_lift_run evaluated
  | sequence =>
    obtain ⟨_, -, same⟩ := Option.map_eq_some_iff.mp exact
    cases same
    exact ⟨rfl, holds, [.position i], rfl, rfl⟩
  | set =>
    obtain ⟨_, -, same⟩ := Option.map_eq_some_iff.mp exact
    cases same
    exact ⟨rfl, holds, [.position i], rfl, rfl⟩
  | filter filter =>
    simp only [onward, Filter.admits_eq, Option.ite_none_right_eq_some, Bool.and_eq_true] at exact
    obtain ⟨⟨passes, conditions⟩, same⟩ := exact
    obtain rfl : [] = entries := (Prod.mk.inj (Option.some.inj same)).1
    refine ⟨passes, ?_, [], by simp [NodeKind.extend], rfl⟩
    rw [Piece.holds, NodeKind.extend, List.all_append, conditions, Bool.and_true]
    exact holds
  | leaf => simp [onward] at exact

/-- A walk that ends at a leaf is the first piece whose conditions hold at the instance. -/
theorem find?_pieces {t : Tree} {visits : List Visit}
    (walk : (t.visits x.stmt x.point x.params).run = .ok (.ok visits))
    (leaf : t.endsAtLeaf x = true) (holds : start.holds x = true) :
    ∃ piece dims, (t.pieces x.stmt start).find? (·.holds x) = some piece ∧
      piece.dims = start.dims ++ dims ∧
      dims.mapM (·.eval x.point x.params) = .ok (visits.flatMap (·.entries)) := by
  induction t generalizing visits start with
  | missing => cases walk
  | node id kind arity child ih =>
    obtain ⟨entries, later, rfl, ⟨stepped, rfl⟩ | ⟨i, stepped, below⟩⟩ := visits_run walk
    · have exact := (step_agrees child x kind).eq_some stepped
      obtain rfl : kind = .leaf := by simpa [endsAtLeaf, exact] using leaf
      obtain rfl : [] = entries := (Prod.mk.inj (Option.some.inj exact)).1
      exact ⟨start, [], by simp [pieces, holds], by simp, rfl⟩
    · have exact := (step_agrees child x kind).eq_some stepped
      have inner : kind ≠ .leaf := by
        rintro rfl
        simp [onward] at exact
      obtain ⟨passes, extended, own, dims, ownEntries⟩ := extend_of_step stepped holds
      obtain ⟨piece, rest, found, dims', laterEntries⟩ :=
        ih i below (by simpa [endsAtLeaf, exact] using leaf) extended
      obtain ⟨before, after, split, refused⟩ := before_of_onward exact
      refine ⟨piece, own ++ rest, ?_, by rw [dims', dims, List.append_assoc], ?_⟩
      · rw [pieces_node x.stmt inner, if_pos passes, List.find?_flatMap, split]
        refine List.findSome?_eq_some_iff.mpr ⟨before, i, after, rfl, found, fun j earlier => ?_⟩
        refine List.find?_eq_none.mpr fun p member => ?_
        simp [not_holds_of_not_admits member (refused j earlier)]
      · rw [List.mapM_append, ownEntries, laterEntries]
        rfl

end Tree

/-- Statements that have time stamps have pieces. -/
theorem Arena.flatten_of_visits {a : Arena} {x : Iteration} {visits : List Visit}
    (way : (a.visits x.stmt x.point x.params).run = .ok (.ok visits)) :
    a.flatten.get? x.stmt = some (a.tree.pieces x.stmt .empty) ∧
      (a.tree.visits x.stmt x.point x.params).run = .ok (.ok visits) := by
  rw [Arena.visits] at way
  rw [Arena.flatten]
  cases domains? : a.domains? with
  | none =>
    rw [domains?] at way
    cases way
  | some domains =>
    simp only [domains?] at way
    cases found : domains.get? x.stmt with
    | none =>
      rw [found] at way
      cases way
    | some domain =>
      simp only [found] at way
      split at way
      · cases way
      · exact ⟨by simp [found], way⟩

/-- The symbolic and the concrete view of a schedule agree. If the way of an instance ends at a
leaf, there is a piece whose conditions hold at the instance, and the first one gives its time
stamp. -/
theorem Arena.timestamp_eq_first_piece {a : Arena} {x : Iteration} {visits : List Visit}
    {stamp : List Int} (wellFormed : a.isWellFormed = true)
    (way : (a.visits x.stmt x.point x.params).run = .ok (.ok visits)) (leaf : a.EndsAtLeaf visits)
    (stamped : (a.timestamp x.stmt x.point x.params).run = .ok (.ok stamp)) :
    ∃ pieces piece, a.flatten.get? x.stmt = some pieces ∧
      pieces.find? (·.holds x) = some piece ∧ piece.eval x.point x.params = .ok stamp := by
  obtain ⟨flat, walk⟩ := Arena.flatten_of_visits way
  obtain ⟨holds, -⟩ := Arena.holds_tree wellFormed
  have exact := Arena.way_eq_some ((a.visits_agrees x).eq_some way)
  have unconditional : Piece.empty.holds x = true := rfl
  obtain ⟨piece, dims, found, same, evaluated⟩ := Tree.find?_pieces walk
    ((Tree.endsAtLeaf_iff holds.stored exact).mpr leaf) unconditional
  refine ⟨_, piece, flat, found, ?_⟩
  rw [Arena.timestamp] at stamped
  rcases Eval.run_bind_ok stamped with ⟨_, _, ⟨⟩⟩ | ⟨visits', way', stamped⟩
  cases way.symm.trans way'
  cases stamped
  rw [Piece.eval, same]
  exact evaluated

/-- The last columns of the grid do not fill a vector of three. Their instances are turned away by
the conditions of the first piece. -/
theorem Edit.grid_timestamp_eq_first_piece : ∃ b pieces piece,
    (Edit.prevectorize 1 1 3).commit Scop.grid.schedule = .ok (.ok (3, b)) ∧
    b.flatten.get? 0 = some pieces ∧ pieces.find? (·.holds ⟨0, [5, 7], []⟩) = some piece ∧
    pieces[1]? = some piece ∧ piece.eval [5, 7] [] = .ok [5, 2, 1, 1] := by
  obtain ⟨⟨own, b⟩, h, facts⟩ : ∃ value : Nat × Arena,
      (Edit.prevectorize 1 1 3).commit Scop.grid.schedule = .ok (.ok value) ∧
      decide (value.1 = 3 ∧ value.2.isWellFormed = true ∧
        (value.2.visits 0 [5, 7] []).run =
          .ok (.ok [⟨0, []⟩, ⟨1, [5]⟩, ⟨3, [2]⟩, ⟨4, [1]⟩, ⟨10, []⟩, ⟨9, [1]⟩, ⟨12, []⟩]) ∧
        value.2.kind? 12 = some .leaf ∧
        (value.2.timestamp 0 [5, 7] []).run = .ok (.ok [5, 2, 1, 1]) ∧
        (value.2.flatten.get? 0).map (fun pieces => pieces.map (·.holds ⟨0, [5, 7], []⟩)) =
          some [false, true]) = true :=
    exists_ok_of_any (by decide +kernel)
  obtain ⟨rfl, wellFormed, way, leaf, stamped, second⟩ := of_decide_eq_true facts
  obtain ⟨pieces, piece, flat, found, evaluated⟩ :=
    Arena.timestamp_eq_first_piece (x := ⟨0, [5, 7], []⟩) wellFormed way leaf stamped
  refine ⟨b, pieces, piece, h, flat, found, ?_, evaluated⟩
  rw [flat, Option.map_some, Option.some.injEq] at second
  obtain ⟨p, q, rfl⟩ := List.length_eq_two.mp (by simpa using congrArg List.length second)
  simp_all

end LoopNest
