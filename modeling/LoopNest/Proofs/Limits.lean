import LoopNest.Proofs.Canonical
import LoopNest.Proofs.RefusedEdits
import LoopNest.Proofs.TreeShape

/-! The walks over an arena, with a limit that shows: a walk that comes to its limit gives `none`. A
walk ends if all limits from some on give the same result, which is then what it gives without a
limit. The search for repeated references ends in every arena, also where nodes lie below
themselves. In a well-formed arena the other walks end as well, with the results that they are
defined to have. -/

namespace LoopNest

/-- From some limit on, the walk has a result, and always the same. -/
def Ends {α : Type} (walk : Nat → Option α) (result : α) : Prop :=
  ∃ enough, ∀ limit, enough ≤ limit → walk limit = some result

abbrev Limited := ExceptT Fault Option

namespace Limited

def ended {α : Type} (outcome : Checked α) : Limited α := ExceptT.mk (some outcome)

/-- Looks for references that lead out of the arena or to a node seen before. -/
def search (a : Arena) : Nat → List Nat → List Nat → Option Bool
  | _, _, [] => some true
  | 0, _, _ :: _ => none
  | limit + 1, seen, id :: stack =>
    match a.node? id with
    | some node =>
      if seen.contains id then some false
      else search a limit (id :: seen) (node.children ++ stack)
    | none => some false

def subtree (a : Arena) : Nat → List Nat → Option (List Nat)
  | _, [] => some []
  | 0, _ :: _ => none
  | limit + 1, id :: stack =>
    match a.node? id with
    | some node => (subtree a limit (node.children ++ stack)).map (id :: ·)
    | none => subtree a limit stack

def pathTo (a : Arena) (target : Nat) : Nat → Nat → Option (Option (List Nat))
  | 0, _ => none
  | limit + 1, id =>
    if id = target then some (some [id])
    else
      match a.node? id with
      | none => some none
      | some node => do
        let below ← (List.finRange node.children.length).findSomeM? fun i =>
          pathTo a target limit (node.children.get i)
        return below.map (id :: ·)

/-- The way of an instance. Of the children of a node, it looks at no more than their kinds before
it goes on to one of them. -/
def visits (a : Arena) (stmt : Nat) (point params : List Int) :
    Nat → Nat → ExceptT EvalError Limited (List Visit)
  | 0, _ => ExceptT.mk (ExceptT.mk none)
  | limit + 1, id =>
    match a.node? id with
    | none => throw (.unscheduled stmt point .danglingNode)
    | some node => do
      let child (i : Fin node.children.length) := a.unfold 1 (node.children.get i)
      let (entries, next?) ← ExceptT.mk (ended (Tree.step child stmt point params node.kind).run)
      match next? with
      | none => return [⟨id, entries⟩]
      | some i => do
        let below ← visits a stmt point params limit (node.children.get i)
        return ⟨id, entries⟩ :: below

def timestamp (a : Arena) (stmt : Nat) (point params : List Int) (limit : Nat) :
    ExceptT EvalError Limited (List Int) :=
  match a.domains? with
  | none => throw (.unscheduled stmt point .noDomainRoot)
  | some domains =>
    match domains.get? stmt with
    | none => throw (.unknownStatement stmt)
    | some domain =>
      if params.length < domain.nParam then
        throw (.missingParameter domain.nParam params.length)
      else do
        let visits ← visits a stmt point params limit a.root
        return visits.flatMap (·.entries)

def pieces (a : Arena) (stmt : Nat) : Nat → Piece → Nat → Option (List Piece)
  | 0, _, _ => none
  | limit + 1, piece, id =>
    match a.node? id with
    | none => some []
    | some node =>
      if node.kind = .leaf then some [piece]
      else if node.kind.mayPass stmt then do
        let below ← (List.finRange node.children.length).mapM fun i =>
          pieces a stmt limit (node.kind.extend stmt i.val piece) (node.children.get i)
        return below.flatten
      else some []

def flatten (a : Arena) (limit : Nat) : Option (StmtMap (List Piece)) :=
  match a.domains? with
  | some domains => do
    let entries ← domains.keys.mapM fun stmt => do
      let pieces ← pieces a stmt limit .empty a.root
      return (stmt, pieces)
    return .ofList entries
  | none => some .empty

abbrev Editing := ExceptT Refusal (StateT Arena Limited)

def endedEdit {α : Type} (edit : Edit α) : Editing α :=
  ExceptT.mk (StateT.mk fun a => ended (edit.perform a))

def copySubtree : Nat → Nat → Editing Nat
  | 0, _ => ExceptT.mk (StateT.mk fun _ => ExceptT.mk none)
  | limit + 1, id => do
    let node ← endedEdit (Edit.nodeAt .copySubtree id)
    let children ← node.children.mapM (copySubtree limit)
    endedEdit (Edit.push { node with children })

def store (a : Arena) : Nat → Nat → Nat → Limited (List Node)
  | 0, _, _ => ExceptT.mk none
  | limit + 1, next, id =>
    match a.node? id with
    | none => throw .outOfBounds
    | some node => do
      let (ids, below) ← (List.finRange node.children.length).foldlM (fun (ids, below) i => do
        let top := next + 1 + below.length
        let nodes ← store a limit top (node.children.get i)
        return (ids ++ [top], below ++ nodes)) ([], [])
      return ⟨node.kind, ids⟩ :: below

def compact (a : Arena) (limit : Nat) : Limited Arena := do
  let nodes ← store a limit 0 a.root
  return ⟨nodes.toArray, 0⟩

variable {a b : Arena} {id levels limit : Nat}

/-! ## The search for repeated references -/

/-- The search ends when it has seen all nodes, if not before. -/
theorem search_eq {unseen : Nat} {seen stack : List Nat} (distinct : seen.Nodup)
    (inside : ∀ id ∈ seen, id < a.size) (steps : a.size ≤ unseen + seen.length)
    (enough : a.size < limit + seen.length) :
    search a limit seen stack = some (a.wellFormedFrom unseen seen stack) := by
  induction limit generalizing unseen seen stack with
  | zero =>
    have := Arena.length_le_size distinct inside
    omega
  | succ limit ih =>
    cases stack with
    | nil => simp [search, Arena.wellFormedFrom]
    | cons id stack =>
      cases here : a.node? id with
      | none => cases unseen <;> simp [search, Arena.wellFormedFrom, here]
      | some n =>
        by_cases repeated : id ∈ seen
        · cases unseen <;> simp [search, Arena.wellFormedFrom, here, repeated]
        · have distinct' : (id :: seen).Nodup := List.nodup_cons.mpr ⟨repeated, distinct⟩
          have inside' : ∀ other ∈ id :: seen, other < a.size :=
            List.forall_mem_cons.mpr ⟨Arena.lt_size_of_node? here, inside⟩
          have room := Arena.length_le_size distinct' inside'
          rw [List.length_cons] at room
          obtain ⟨unseen, rfl⟩ : ∃ rest, unseen = rest + 1 := Nat.exists_eq_add_one.mpr (by omega)
          have later : search a limit (id :: seen) (n.children ++ stack) =
              some (a.wellFormedFrom unseen (id :: seen) (n.children ++ stack)) := by
            apply ih distinct' inside'
            · rw [List.length_cons]
              omega
            · rw [List.length_cons]
              omega
          simp [search, Arena.wellFormedFrom, here, repeated, later]

theorem search_root (a : Arena) : Ends (fun limit => search a limit [] [a.root]) a.isWellFormed :=
  ⟨a.size + 1, fun limit enough => search_eq .nil (by simp) (by simp) enough⟩

/-! ## Walks down a tree -/

/-- Where what an arena unfolds to is stored, the top is a node, and so it is below. -/
theorem exists_node (stored : (a.unfold (levels + 1) id).Stored a) :
    ∃ n, a.node? id = some n ∧
      ∀ i : Fin n.children.length, (a.unfold levels (n.children.get i)).Stored a := by
  rw [Arena.unfold] at stored
  cases here : a.node? id with
  | none =>
    rw [here] at stored
    exact stored.elim
  | some n =>
    rw [here] at stored
    exact ⟨n, rfl, stored.2⟩

/-- Induction down a stored tree, with a limit that is no lower than its levels. -/
theorem descend {motive : Nat → Nat → Nat → Prop}
    (step : ∀ levels limit id n, a.node? id = some n →
      (∀ i : Fin n.children.length, (a.unfold levels (n.children.get i)).Stored a) →
      (∀ i : Fin n.children.length, motive levels limit (n.children.get i)) →
      motive (levels + 1) (limit + 1) id)
    (stored : (a.unfold levels id).Stored a) (enough : levels ≤ limit) :
    motive levels limit id := by
  induction levels generalizing id limit with
  | zero => exact stored.elim
  | succ levels ih =>
    obtain ⟨n, here, below⟩ := exists_node stored
    cases limit with
    | zero => omega
    | succ limit =>
      exact step levels limit id n here below fun i => ih (below i) (Nat.le_of_succ_le_succ enough)

theorem subtree_append {tops : List Nat}
    (each : ∀ id ∈ tops, ∀ stack limit,
      subtree a (limit + (a.unfold levels id).ids.length) (id :: stack) =
        (subtree a limit stack).map ((a.unfold levels id).ids ++ ·))
    (stack : List Nat) (limit : Nat) :
    subtree a (limit + (tops.flatMap fun id => (a.unfold levels id).ids).length) (tops ++ stack) =
      (subtree a limit stack).map ((tops.flatMap fun id => (a.unfold levels id).ids) ++ ·) := by
  induction tops with
  | nil => simp
  | cons id rest ih =>
    have steps : limit + ((id :: rest).flatMap fun id => (a.unfold levels id).ids).length =
        limit + (rest.flatMap fun id => (a.unfold levels id).ids).length +
          (a.unfold levels id).ids.length := by
      rw [List.flatMap_cons, List.length_append]
      omega
    rw [steps, List.cons_append, each id (by simp),
      ih fun other member => each other (by simp [member])]
    simp [Option.map_map, Function.comp_def]

/-- A tree on top of the stack takes as many steps as it has nodes, and they come before what lies
below it on the stack. -/
theorem subtree_unfold (stored : (a.unfold levels id).Stored a) (stack : List Nat) (limit : Nat) :
    subtree a (limit + (a.unfold levels id).ids.length) (id :: stack) =
      (subtree a limit stack).map ((a.unfold levels id).ids ++ ·) := by
  induction levels generalizing id stack limit with
  | zero => exact stored.elim
  | succ levels ih =>
    obtain ⟨n, here, below⟩ := exists_node stored
    have own : (a.unfold (levels + 1) id).ids =
        id :: n.children.flatMap fun id => (a.unfold levels id).ids := by
      rw [Arena.unfold, here, ← Arena.flatMap_finRange_get]
      rfl
    have each : ∀ child ∈ n.children, ∀ stack limit,
        subtree a (limit + (a.unfold levels child).ids.length) (child :: stack) =
          (subtree a limit stack).map ((a.unfold levels child).ids ++ ·) := by
      intro child member
      obtain ⟨i, rfl⟩ := List.mem_iff_get.mp member
      exact ih (below i)
    rw [own, List.length_cons, ← Nat.add_assoc, subtree, here]
    simp only [subtree_append each, Option.map_map]
    rfl

/-- The walk has no end if it comes to one of some nodes that each refer to one of them. -/
theorem subtree_eq_none {P : Nat → Prop}
    (onward : ∀ id, P id → ∃ n, a.node? id = some n ∧ ∃ child ∈ n.children, P child)
    {stack : List Nat} (reached : ∃ id ∈ stack, P id) : subtree a limit stack = none := by
  induction limit generalizing stack with
  | zero =>
    cases stack with
    | nil => simp at reached
    | cons => rfl
  | succ limit ih =>
    obtain ⟨other, member, trapped⟩ := reached
    cases stack with
    | nil => simp at member
    | cons id stack =>
      rw [subtree]
      cases here : a.node? id with
      | none =>
        rcases List.mem_cons.mp member with rfl | member
        · obtain ⟨n, found, -⟩ := onward other trapped
          exact absurd (here.symm.trans found) (by simp)
        · exact ih ⟨other, member, trapped⟩
      | some n =>
        rw [Option.map_eq_none_iff]
        rcases List.mem_cons.mp member with rfl | member
        · obtain ⟨n', found, child, below, inside⟩ := onward other trapped
          cases here.symm.trans found
          exact ih ⟨child, List.mem_append_left _ below, inside⟩
        · exact ih ⟨other, List.mem_append_right _ member, trapped⟩

theorem pathTo_unfold (stored : (a.unfold levels id).Stored a) (enough : levels ≤ limit)
    (target : Nat) : pathTo a target limit id = some ((a.unfold levels id).pathTo? target) := by
  refine descend (motive := fun levels limit id =>
    pathTo a target limit id = some ((a.unfold levels id).pathTo? target)) ?_ stored enough
  intro levels limit id n here _ ih
  have each : (fun i : Fin n.children.length => pathTo a target limit (n.children.get i)) =
      fun i => pure ((a.unfold levels (n.children.get i)).pathTo? target) := funext ih
  rw [pathTo, Arena.unfold, here]
  simp only [each, List.findSomeM?_pure, Tree.pathTo?]
  split <;> rfl

/-! ## The way of an instance -/

section Instance

variable {stmt : Nat} {point params : List Int}

/-- One level shows whether a node takes an instance. -/
theorem accepts_unfold (stored : (a.unfold levels id).Stored a) :
    (a.unfold 1 id).accepts stmt point params = (a.unfold levels id).accepts stmt point params := by
  cases levels with
  | zero => exact stored.elim
  | succ levels =>
    obtain ⟨n, here, -⟩ := exists_node stored
    simp only [Arena.unfold, here]
    cases n.kind <;> rfl

/-- What follows a walk that ends, ends if it does for every outcome of the walk. -/
theorem run_bind {α β : Type} {walk : ExceptT EvalError Limited α} {outcome : Eval α}
    {walk' : α → ExceptT EvalError Limited β} {next : α → Eval β}
    (first : walk.run = ended outcome.run) (later : ∀ r, (walk' r).run = ended (next r).run) :
    (walk >>= walk').run = ended (outcome >>= next).run := by
  rw [ExceptT.run_bind, first]
  rcases outcome with fault | error | r
  · rfl
  · rfl
  · exact later r

theorem visits_unfold (stored : (a.unfold levels id).Stored a) (enough : levels ≤ limit) :
    (visits a stmt point params limit id).run =
      ended ((a.unfold levels id).visits stmt point params).run := by
  refine descend (motive := fun levels limit id => (visits a stmt point params limit id).run =
    ended ((a.unfold levels id).visits stmt point params).run) ?_ stored enough
  intro levels limit id n here below ih
  rw [visits, Arena.unfold, here]
  simp only [Tree.visits]
  rw [Tree.step_congr n.kind fun i => accepts_unfold (below i)]
  apply run_bind rfl
  rintro ⟨entries, next?⟩
  cases next? with
  | none => rfl
  | some i => exact run_bind (ih i) fun _ => rfl

end Instance

/-! ## Pieces -/

theorem pieces_unfold (stored : (a.unfold levels id).Stored a) (enough : levels ≤ limit)
    (stmt : Nat) (piece : Piece) :
    pieces a stmt limit piece id = some ((a.unfold levels id).pieces stmt piece) := by
  refine descend (motive := fun levels limit id => ∀ piece,
    pieces a stmt limit piece id = some ((a.unfold levels id).pieces stmt piece)) ?_ stored enough
    piece
  intro levels limit id n here _ ih piece
  rw [pieces, Arena.unfold, here]
  simp only
  by_cases leaf : n.kind = .leaf
  · rw [if_pos leaf, leaf, Tree.pieces]
  · rw [if_neg leaf, Tree.pieces_node stmt leaf]
    by_cases passes : n.kind.mayPass stmt = true
    · have each : (fun i : Fin n.children.length =>
            pieces a stmt limit (n.kind.extend stmt i.val piece) (n.children.get i)) =
          fun i => pure ((a.unfold levels (n.children.get i)).pieces stmt
            (n.kind.extend stmt i.val piece)) :=
        funext fun i => ih i _
      rw [if_pos passes, if_pos passes, each, List.mapM_pure]
      rfl
    · rw [if_neg passes, if_neg passes]

/-! ## Numbering -/

theorem ended_bind {α β : Type} {outcome : Checked α} {walk : α → Limited β}
    {next : α → Checked β} (later : ∀ r, walk r = ended (next r)) :
    ended outcome >>= walk = ended (outcome >>= next) := by
  cases outcome with
  | error fault => rfl
  | ok r => exact later r

theorem foldlM_ended {α β : Type} {walk : α → β → Limited α} {step : α → β → Checked α}
    (each : ∀ state item, walk state item = ended (step state item)) (items : List β) (start : α) :
    items.foldlM walk start = ended (items.foldlM step start) := by
  induction items generalizing start with
  | nil => rfl
  | cons item rest ih =>
    rw [List.foldlM_cons, List.foldlM_cons, each]
    exact ended_bind ih

theorem store_unfold (stored : (a.unfold levels id).Stored a) (enough : levels ≤ limit)
    (next : Nat) : store a limit next id = ended ((a.unfold levels id).store next) := by
  refine descend (motive := fun levels limit id => ∀ next,
    store a limit next id = ended ((a.unfold levels id).store next)) ?_ stored enough next
  intro levels limit id n here _ ih next
  rw [store, Arena.unfold, here]
  simp only [Tree.store]
  rw [foldlM_ended fun state i => ?_]
  · exact ended_bind fun _ => rfl
  · rw [ih i]
    exact ended_bind fun _ => rfl

/-! ## Copies -/

section Copies

variable {α β : Type}

/-- An edit with a limit ends as another edit does. -/
def EndsAs (walk : Editing α) (edit : Edit α) (a : Arena) : Prop :=
  walk.run.run a = ended (edit.perform a)

theorem EndsAs.bind {walk : Editing α} {edit : Edit α} {walk' : α → Editing β} {edit' : α → Edit β}
    (first : EndsAs walk edit a)
    (later : ∀ r b, edit.Does a r b → EndsAs (walk' r) (edit' r) b) :
    EndsAs (walk >>= walk') (edit >>= edit') a := by
  rw [EndsAs, Edit.perform_bind, ExceptT.run_bind, StateT.run_bind, first]
  rcases performed : edit.perform a with fault | ⟨refusal | r, b⟩
  · rfl
  · rfl
  · exact later r b performed

theorem endsAs_mapM {walk : α → Editing β} {edit : α → Edit β} {items : List α}
    (each : ∀ item ∈ items, ∀ b, a.Extends b → EndsAs (walk item) (edit item) b)
    (grows : ∀ item b, (edit item).Grows b) (extended : a.Extends b) :
    EndsAs (items.mapM walk) (items.mapM edit) b := by
  induction items generalizing b with
  | nil => rfl
  | cons item rest ih =>
    rw [List.mapM_cons, List.mapM_cons]
    refine (each item (by simp) b extended).bind fun r c does => ?_
    have onward : a.Extends c := extended.trans (grows item b _ c does)
    exact (ih (fun other member => each other (by simp [member])) onward).bind fun _ _ _ => rfl

/-- Copies add nodes only, so what is left to copy when some are made is what was there before. -/
theorem copySubtree_unfold {more : Nat} (stored : (a.unfold levels id).Stored a)
    (enough : levels ≤ limit) (enough' : levels ≤ more) (extended : a.Extends b) :
    EndsAs (copySubtree limit id) (Edit.copyLevels more id) b := by
  refine descend (motive := fun levels limit id => ∀ more b, levels ≤ more → a.Extends b →
    EndsAs (copySubtree limit id) (Edit.copyLevels more id) b) ?_ stored enough more b enough'
    extended
  intro levels limit id n here _ ih more b enough extended
  obtain ⟨more, rfl⟩ : ∃ rest, more = rest + 1 := Nat.exists_eq_add_one.mpr (by omega)
  rw [copySubtree, Edit.copyLevels]
  have read : EndsAs (endedEdit (Edit.nodeAt .copySubtree id)) (Edit.nodeAt .copySubtree id) b :=
    rfl
  refine read.bind fun n' c does => ?_
  obtain ⟨found, rfl⟩ := Edit.does_nodeAt.mp does
  obtain rfl : n = n' := by
    rw [extended.frame id (Arena.lt_size_of_node? here), here] at found
    exact Option.some.inj found
  have copied : EndsAs (n.children.mapM (copySubtree limit))
      (n.children.mapM (Edit.copyLevels more)) b := by
    apply endsAs_mapM _ (fun child c => Edit.copyLevels_grows) extended
    intro child member c extended
    obtain ⟨i, rfl⟩ := List.mem_iff_get.mp member
    exact ih i more c (Nat.le_of_succ_le_succ enough) extended
  exact copied.bind fun _ _ _ => rfl

end Copies

end Limited

/-! ## Well-formed arenas -/

namespace Arena

variable {a : Arena}

/-- The walks from nodes below the root end, and copies and compaction do not fail. -/
structure WalksEnd (a : Arena) : Prop where
  subtree : ∀ id ∈ a.subtree a.root, Ends (fun limit => Limited.subtree a limit [id]) (a.subtree id)
  pathTo : ∀ id, Ends (fun limit => Limited.pathTo a id limit a.root) (a.pathTo? id)
  timestamp : ∀ stmt point params,
    Ends (fun limit => (Limited.timestamp a stmt point params limit).run.run)
      (a.timestamp stmt point params).run
  flatten : Ends (Limited.flatten a) a.flatten
  copySubtree : ∀ id ∈ a.subtree a.root, ∃ top b, (Edit.copySubtree id).Does a top b ∧
    Ends (fun limit => ((Limited.copySubtree limit id).run.run a).run) (.ok (.ok top, b))
  compact : ∃ b, a.compact = .ok b ∧ Ends (fun limit => (Limited.compact a limit).run) (.ok b)

theorem subtree_ends {id : Nat} (stored : (a.treeAt id).Stored a) :
    Ends (fun limit => Limited.subtree a limit [id]) (a.subtree id) := by
  refine ⟨(a.treeAt id).ids.length, fun limit enough => ?_⟩
  obtain ⟨rest, rfl⟩ := Nat.exists_eq_add_of_le' enough
  have walk := Limited.subtree_unfold stored [] rest
  have done : Limited.subtree a rest [] = some [] := by cases rest <;> rfl
  rw [done, Option.map_some, List.append_nil] at walk
  exact walk

theorem timestamp_ends (stored : a.tree.Stored a) (stmt : Nat) (point params : List Int) :
    Ends (fun limit => (Limited.timestamp a stmt point params limit).run.run)
      (a.timestamp stmt point params).run := by
  refine ⟨a.size, fun limit enough => ?_⟩
  simp only [Limited.timestamp, timestamp, visits]
  cases a.domains? with
  | none => rfl
  | some domains =>
    cases found : domains.get? stmt with
    | none =>
      simp only [found]
      rfl
    | some domain =>
      by_cases short : params.length < domain.nParam
      · simp only [found, if_pos short]
        rfl
      · simp only [found, if_neg short]
        exact Limited.run_bind (Limited.visits_unfold stored enough) fun _ => rfl

theorem flatten_ends (stored : a.tree.Stored a) : Ends (Limited.flatten a) a.flatten := by
  refine ⟨a.size, fun limit enough => ?_⟩
  rw [Limited.flatten, flatten]
  cases a.domains? with
  | none => rfl
  | some domains =>
    have each : (fun stmt => do
          let pieces ← Limited.pieces a stmt limit .empty a.root
          return (stmt, pieces)) =
        fun stmt => pure (stmt, a.tree.pieces stmt .empty) := by
      funext stmt
      rw [Limited.pieces_unfold stored enough stmt .empty]
      rfl
    have entries : (domains.map fun stmt _ => a.tree.pieces stmt .empty).entries =
        domains.keys.map fun stmt => (stmt, a.tree.pieces stmt .empty) := by
      simp [StmtMap.map, StmtMap.keys]
    simp only [each, List.mapM_pure, ← entries]
    exact congrArg some (StmtMap.ofList_entries _)

theorem mem_subtree_iff (wellFormed : a.isWellFormed = true) {id : Nat} :
    id ∈ a.subtree a.root ↔ ∃ way, a.follow? way a.root = some id := by
  obtain ⟨holds, top⟩ := holds_tree wellFormed
  rw [← top, holds.subtree_eq]
  exact holds.stored.mem_ids_iff

theorem stored_treeAt (wellFormed : a.isWellFormed = true) {id : Nat}
    (reached : id ∈ a.subtree a.root) : (a.treeAt id).Stored a := by
  obtain ⟨way, leads⟩ := (mem_subtree_iff wellFormed).mp reached
  exact (isWellFormed_iff.mp wellFormed).stored_unfold way leads (Nat.le_add_left _ _)

theorem walksEnd (wellFormed : a.isWellFormed = true) : a.WalksEnd where
  subtree id reached := subtree_ends (stored_treeAt wellFormed reached)
  pathTo id := ⟨a.size, fun limit enough =>
    Limited.pathTo_unfold (holds_tree wellFormed).1.stored enough id⟩
  timestamp := timestamp_ends (holds_tree wellFormed).1.stored
  flatten := flatten_ends (holds_tree wellFormed).1.stored
  copySubtree id reached := by
    obtain ⟨above, kind, arity, child, located⟩ := exists_locates wellFormed reached
    obtain ⟨copy, b, does⟩ := Edit.exists_does (Edit.failsOnly_copySubtree located.holds)
    refine ⟨copy, b, does, a.size, fun limit enough => ?_⟩
    have ends := Limited.copySubtree_unfold (stored_treeAt wellFormed reached) enough
      (Nat.le_add_right a.size _ : a.size ≤ a.descentLimit) .refl
    rw [← does, Edit.copySubtree, Edit.perform_get_bind]
    exact ends
  compact := by
    obtain ⟨b, compacted, -⟩ := exists_compact wellFormed
    refine ⟨b, compacted, a.size, fun limit enough => ?_⟩
    simp only [Limited.compact, Limited.store_unfold (holds_tree wellFormed).1.stored enough]
    rw [← compacted]
    exact Limited.ended_bind fun _ => rfl

theorem isSome_pathTo?_iff (wellFormed : a.isWellFormed = true) (id : Nat) :
    (a.pathTo? id).isSome = true ↔ id ∈ a.subtree a.root := by
  obtain ⟨holds, top⟩ := holds_tree wellFormed
  constructor
  · intro found
    by_contra outside
    rw [← top, holds.subtree_eq] at outside
    rw [pathTo?, Tree.pathTo?_eq_none holds.stored outside] at found
    exact absurd found (by simp)
  · intro reached
    obtain ⟨above, kind, arity, child, located⟩ := exists_locates wellFormed reached
    have found := located.pathTo?
    rw [Tree.top_node] at found
    rw [found, Option.isSome_some]

/-- Well-formedness is decided for every arena, whatever its references: the search ends, and its
answer is whether the arena has the shape of a tree. If it has, no node comes twice below the root,
there is a path to exactly the nodes below the root, which are those that a way leads to, and all
walks end. -/
theorem isWellFormed_decides (a : Arena) :
    Ends (fun limit => Limited.search a limit [] [a.root]) a.isWellFormed ∧
    (a.isWellFormed = true ↔ a.IsTreeShaped) ∧
    (a.isWellFormed = true →
      (a.subtree a.root).Nodup ∧
      (∀ id, id ∈ a.subtree a.root ↔ ∃ way, a.follow? way a.root = some id) ∧
      (∀ id, (a.pathTo? id).isSome = true ↔ id ∈ a.subtree a.root) ∧
      a.WalksEnd) := by
  refine ⟨Limited.search_root a, isWellFormed_iff, fun wellFormed => ?_⟩
  obtain ⟨holds, top⟩ := holds_tree wellFormed
  have distinct : (a.subtree a.root).Nodup := by
    rw [← top, holds.subtree_eq]
    exact holds.distinct
  exact ⟨distinct, fun id => mem_subtree_iff wellFormed, isSome_pathTo?_iff wellFormed,
    walksEnd wellFormed⟩

/-- A node that refers back to the root. -/
def looped : Arena := ⟨#[⟨.sequence, [1]⟩, ⟨.set, [0]⟩], 0⟩

def doubled : Arena := ⟨#[⟨.sequence, [1, 1]⟩, ⟨.leaf, []⟩], 0⟩

/-- The search refuses arenas in which a node is met again. In one of them, the walk that lists the
nodes comes to its limit, whatever that is. -/
theorem scattered_walksEnd :
    scattered.WalksEnd ∧ ¬looped.IsTreeShaped ∧ ¬doubled.IsTreeShaped ∧
      Ends (fun limit => Limited.search looped limit [] [0]) false ∧
      ∀ limit, Limited.subtree looped limit [0] = none := by
  obtain ⟨search, shape, -⟩ := isWellFormed_decides looped
  obtain ⟨-, shape', -⟩ := isWellFormed_decides doubled
  obtain ⟨-, -, walks⟩ := isWellFormed_decides scattered
  have refused : looped.isWellFormed = false := by decide +kernel
  have refused' : doubled.isWellFormed = false := by decide +kernel
  rw [refused] at search shape
  rw [refused'] at shape'
  have onward : ∀ id, id ∈ [0, 1] →
      ∃ n, looped.node? id = some n ∧ ∃ child ∈ n.children, child ∈ [0, 1] := by
    intro id member
    rcases List.mem_pair.mp member with rfl | rfl
    · exact ⟨⟨.sequence, [1]⟩, rfl, 1, by simp⟩
    · exact ⟨⟨.set, [0]⟩, rfl, 0, by simp⟩
  refine ⟨(walks (by decide +kernel)).2.2.2, ?_, ?_, search, fun limit => ?_⟩
  · exact mt shape.mpr (by decide)
  · exact mt shape'.mpr (by decide)
  · exact Limited.subtree_eq_none onward ⟨0, by simp⟩

end Arena

end LoopNest
