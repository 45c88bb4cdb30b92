import LoopNest.Proofs.Value
import LoopNest.Schedule.Timestamp

/-! The way of an instance down a tree, with all expressions evaluated exactly. Where the checked
walk does not fault, it finds this way, or fails because there is none. What is said about schedules
is said about exact ways, and carried over to time stamps here. -/

namespace LoopNest

/-- A statement instance at given parameter values. -/
structure Iteration where
  stmt : Nat
  point : List Int
  params : List Int

namespace Iteration

def value (x : Iteration) (e : Quasi) : Int := e.value x.point x.params

def values (x : Iteration) (exprs : List Quasi) : List Int := exprs.map x.value

@[simp] theorem length_values (x : Iteration) (exprs : List Quasi) :
    (x.values exprs).length = exprs.length := by simp [values]

end Iteration

def Guard.admits (guard : Guard) (x : Iteration) : Bool := guard.all fun e => 0 ≤ x.value e

def TileFilter.isFull (tiles : TileFilter) (x : Iteration) : Bool :=
  match tiles.guard? x.stmt with
  | some guard => guard.admits x
  | none => false

def Filter.admits (x : Iteration) : Filter → Bool
  | statements stmts => stmts.contains x.stmt
  | tiles t =>
    match t.kind with
    | .full => t.isFull x
    | .partly => !t.isFull x

theorem Filter.mayPass_of_admits {filter : Filter} {x : Iteration} (h : filter.admits x = true) :
    filter.mayPass x.stmt = true := by
  cases filter with
  | statements stmts => exact h
  | tiles t =>
    simp only [admits, mayPass] at h ⊢
    cases kind : t.kind with
    | partly => rfl
    | full =>
      simp only [kind, TileFilter.isFull] at h
      cases guard : t.guard? x.stmt with
      | none => simp [guard] at h
      | some g => rfl

namespace Tree

def admits (x : Iteration) : Tree → Bool
  | missing _ => false
  | node _ (.filter filter) _ _ => filter.admits x
  | node _ _ _ _ => true

/-- The child to which a way goes on that does not choose. -/
def first (arity : Nat) : Option (Fin arity) := (List.finRange arity).head?

@[simp] theorem first_one : first 1 = some 0 := rfl

/-- What a node adds to the time stamp, and the child to which the way goes on. -/
def onward (x : Iteration) {arity : Nat} (child : Fin arity → Tree) :
    NodeKind → Option (List Int × Option (Fin arity))
  | .domain _ => some ([], first arity)
  | .band band => (band.schedule.get? x.stmt).map fun exprs => (x.values exprs, first arity)
  | .sequence | .set =>
    ((List.finRange arity).find? fun i => (child i).admits x).map fun i => ([(i.val : Int)], some i)
  | .filter filter => if filter.admits x then some ([], first arity) else none
  | .leaf => some ([], none)

/-- The exact way of an instance, if the tree schedules it. -/
def way (x : Iteration) : Tree → Option (List Visit)
  | missing _ => none
  | node id kind _ child => do
    let (entries, next?) ← onward x child kind
    match next? with
    | none => some [⟨id, entries⟩]
    | some i => do
      let below ← (child i).way x
      some (⟨id, entries⟩ :: below)

def stamp (x : Iteration) (t : Tree) : Option (List Int) :=
  (t.way x).map fun visits => visits.flatMap (·.entries)

end Tree

/-! ## The checked walk finds the exact way -/

/-- An evaluation that does not fault has the given answer, or fails where there is none. -/
def Eval.Agrees {α : Type} (e : Eval α) (exact : Option α) : Prop :=
  match e.run with
  | .error _ => True
  | .ok (.ok value) => exact = some value
  | .ok (.error _) => exact = none

namespace Eval

variable {α β : Type}

theorem agrees_pure (value : α) : Agrees (pure value) (some value) := rfl

theorem agrees_throw (error : EvalError) : Agrees (throw error : Eval α) none := rfl

theorem agrees_lift {c : Checked α} {value : α} (h : ∀ r, c = .ok r → r = value) :
    Agrees (liftM c) (some value) := by
  cases c with
  | error => trivial
  | ok r => exact congrArg some (h r rfl).symm

theorem run_bind_ok {e : Eval α} {f : α → Eval β} {r : Except EvalError β}
    (h : (e >>= f).run = .ok r) :
    (∃ error, e.run = .ok (.error error) ∧ r = .error error) ∨
      ∃ a, e.run = .ok (.ok a) ∧ (f a).run = .ok r := by
  rw [ExceptT.run_bind, Checked.bind_eq_ok_iff] at h
  obtain ⟨outcome, ran, h⟩ := h
  cases outcome with
  | error error =>
    cases h
    exact .inl ⟨error, ran, rfl⟩
  | ok a => exact .inr ⟨a, ran, h⟩

theorem agrees_bind {e : Eval α} {exact : Option α} {f : α → Eval β} {g : α → Option β}
    (first : e.Agrees exact) (second : ∀ value, exact = some value → (f value).Agrees (g value)) :
    Agrees (e >>= f) (exact.bind g) := by
  rcases run : e.run with fault | error | value
  · have : (e >>= f).run = .error fault := by
      rw [ExceptT.run_bind, run]
      rfl
    simp only [Agrees, this]
  · have : (e >>= f).run = .ok (.error error) := by
      rw [ExceptT.run_bind, run]
      rfl
    simp only [Agrees, run] at first
    simp only [Agrees, this, first]
    rfl
  · have : (e >>= f).run = (f value).run := by
      rw [ExceptT.run_bind, run]
      rfl
    simp only [Agrees, run] at first
    subst first
    have rest := second value rfl
    simp only [Agrees, this] at rest ⊢
    exact rest

theorem agrees_mapM {f : α → Eval β} {g : α → β} {items : List α}
    (each : ∀ item, (f item).Agrees (some (g item))) :
    Agrees (items.mapM f) (some (items.map g)) := by
  induction items with
  | nil => exact agrees_pure []
  | cons item rest ih =>
    rw [List.mapM_cons]
    refine agrees_bind (g := fun head => some (head :: rest.map g)) (each item) fun head _ => ?_
    exact agrees_bind (g := fun tail => some (head :: tail)) ih fun tail _ => agrees_pure _

theorem Agrees.eq_some {e : Eval α} {exact : Option α} {value : α} (agrees : e.Agrees exact)
    (h : e.run = .ok (.ok value)) : exact = some value := by
  simpa [Agrees, h] using agrees

theorem Agrees.eq_none {e : Eval α} {exact : Option α} {error : EvalError}
    (agrees : e.Agrees exact) (h : e.run = .ok (.error error)) : exact = none := by
  simpa [Agrees, h] using agrees

theorem Agrees.eq_ok_iff {e : Eval α} {exact : Option α} {result : Except EvalError α} {value : α}
    (agrees : e.Agrees exact) (h : e.run = .ok result) :
    result = .ok value ↔ exact = some value := by
  cases result with
  | error => simp [agrees.eq_none h]
  | ok => simp [agrees.eq_some h]

/-- A checked computation has the result that it has as an evaluation. -/
theorem lift_run {computation : Checked α} {result : α}
    (h : (liftM computation : Eval α).run = .ok (.ok result)) : computation = .ok result := by
  cases computation with
  | error => cases h
  | ok =>
    cases h
    rfl

/-- Checked computations have results exactly if they have them as evaluations. -/
theorem mapM_lift_run {f : α → Checked β} {items : List α} {results : List β}
    (h : (items.mapM fun item => (liftM (f item) : Eval β)).run = .ok (.ok results)) :
    items.mapM f = .ok results := by
  induction items generalizing results with
  | nil =>
    cases h
    rfl
  | cons item rest ih =>
    rw [List.mapM_cons] at h
    rcases run_bind_ok h with ⟨_, _, ⟨⟩⟩ | ⟨value, first, h⟩
    rcases run_bind_ok h with ⟨_, _, ⟨⟩⟩ | ⟨values, later, h⟩
    cases h
    rw [List.mapM_cons, lift_run first, ih later]
    rfl

end Eval

theorem Guard.admits_of_isSatisfied {x : Iteration} {guard : Guard} {result : Bool}
    (h : guard.isSatisfied x.point x.params = .ok result) : result = guard.admits x := by
  induction guard with
  | nil =>
    cases h
    rfl
  | cons e es ih =>
    simp only [Guard.isSatisfied, Checked.bind_eq_ok_iff] at h
    obtain ⟨value, hv, h⟩ := h
    have exact : value = x.value e := Quasi.eq_value_of_eval hv
    subst exact
    split at h
    · rename_i nonneg
      rw [ih h]
      simp [Guard.admits, nonneg]
    · rename_i negative
      cases h
      simp [Guard.admits, negative]

theorem Filter.admits_of_passes {x : Iteration} {filter : Filter} {result : Bool}
    (h : filter.passes x.stmt x.point x.params = .ok result) : result = filter.admits x := by
  cases filter with
  | statements stmts =>
    cases h
    rfl
  | tiles t =>
    simp only [Filter.passes, Checked.bind_eq_ok_iff] at h
    obtain ⟨full, hf, h⟩ := h
    have exact : full = t.isFull x := by
      simp only [TileFilter.inFullTile, TileFilter.isFull] at hf ⊢
      cases guard : t.guard? x.stmt with
      | none =>
        rw [guard] at hf
        cases hf
        rfl
      | some g =>
        rw [guard] at hf
        exact Guard.admits_of_isSatisfied hf
    cases h
    subst exact
    rfl

namespace Tree

theorem admits_of_accepts {x : Iteration} {t : Tree} {result : Bool}
    (h : t.accepts x.stmt x.point x.params = .ok result) : result = t.admits x := by
  cases t with
  | missing =>
    cases h
    rfl
  | node id kind arity child =>
    cases kind with
    | filter filter => exact Filter.admits_of_passes h
    | _ =>
      cases h
      rfl

theorem find_of_findM {arity : Nat} {child : Fin arity → Tree} {x : Iteration}
    {indices : List (Fin arity)} {result : Option (Fin arity)}
    (h : indices.findM? (fun i => (child i).accepts x.stmt x.point x.params) = .ok result) :
    result = indices.find? fun i => (child i).admits x := by
  induction indices with
  | nil =>
    cases h
    rfl
  | cons i is ih =>
    simp only [List.findM?, Checked.bind_eq_ok_iff] at h
    obtain ⟨accepted, ha, h⟩ := h
    have exact := admits_of_accepts ha
    cases accepted with
    | true =>
      cases h
      simp [← exact]
    | false =>
      rw [ih h]
      simp [← exact]

theorem step_agrees {arity : Nat} (child : Fin arity → Tree) (x : Iteration) (kind : NodeKind) :
    (step child x.stmt x.point x.params kind).Agrees (onward x child kind) := by
  have branching : (step.branching child x.stmt x.point x.params).Agrees
      (((List.finRange arity).find? fun i => (child i).admits x).map
        fun i => ([(i.val : Int)], some i)) := by
    rw [Option.map_eq_bind]
    unfold step.branching
    have chosen : (liftM (branch? child x.stmt x.point x.params) : Eval _).Agrees
        (some ((List.finRange arity).find? fun i => (child i).admits x)) :=
      Eval.agrees_lift fun r h => find_of_findM h
    refine Eval.agrees_bind (g := fun r => r.bind fun i => some ([(i.val : Int)], some i))
      chosen fun r same => ?_
    cases r with
    | none => exact Eval.agrees_throw _
    | some i => exact Eval.agrees_pure _
  cases kind with
  | domain domains => exact Eval.agrees_pure _
  | band band =>
    simp only [step, onward]
    cases band.schedule.get? x.stmt with
    | none => exact Eval.agrees_throw _
    | some exprs =>
      refine Eval.agrees_bind (g := fun entries => some (entries, first arity))
        (Eval.agrees_mapM (g := x.value) fun e => ?_) fun entries same => Eval.agrees_pure _
      exact Eval.agrees_lift fun r h => Quasi.eq_value_of_eval h
  | sequence => exact branching
  | set => exact branching
  | filter filter =>
    have passes : (liftM (filter.passes x.stmt x.point x.params) : Eval Bool).Agrees
        (some (filter.admits x)) := Eval.agrees_lift fun r h => Filter.admits_of_passes h
    refine Eval.agrees_bind (g := fun b => if b then some ([], first arity) else none)
      passes fun b same => ?_
    cases b with
    | false => exact Eval.agrees_throw _
    | true => exact Eval.agrees_pure _
  | leaf => exact Eval.agrees_pure _

theorem visits_agrees (x : Iteration) (t : Tree) :
    (t.visits x.stmt x.point x.params).Agrees (t.way x) := by
  induction t with
  | missing id => exact Eval.agrees_throw _
  | node id kind arity child ih =>
    rw [visits, way]
    refine Eval.agrees_bind (step_agrees child x kind) fun r same => ?_
    obtain ⟨entries, next?⟩ := r
    cases next? with
    | none => exact Eval.agrees_pure _
    | some i => exact Eval.agrees_bind (ih i) fun below same => Eval.agrees_pure _

end Tree

namespace Arena

/-- The exact way of an instance from the root. -/
def way (a : Arena) (x : Iteration) : Option (List Visit) :=
  (a.domains?.bind (·.get? x.stmt)).bind fun domain =>
    if x.params.length < domain.nParam then none else a.tree.way x

def stamp (a : Arena) (x : Iteration) : Option (List Int) :=
  (a.way x).map fun visits => visits.flatMap (·.entries)

theorem visits_agrees (a : Arena) (x : Iteration) :
    (a.visits x.stmt x.point x.params).Agrees (a.way x) := by
  rw [visits, way]
  cases a.domains? with
  | none => exact Eval.agrees_throw _
  | some domains =>
    simp only [Option.bind_some]
    cases domains.get? x.stmt with
    | none => exact Eval.agrees_throw _
    | some domain =>
      simp only [Option.bind_some]
      split
      · exact Eval.agrees_throw _
      · exact a.tree.visits_agrees x

theorem timestamp_agrees (a : Arena) (x : Iteration) :
    (a.timestamp x.stmt x.point x.params).Agrees (a.stamp x) := by
  rw [timestamp, stamp, Option.map_eq_bind]
  exact Eval.agrees_bind (a.visits_agrees x) fun visits _ => Eval.agrees_pure _

theorem stamp_eq (a : Arena) (x : Iteration) :
    a.stamp x = (a.domains?.bind (·.get? x.stmt)).bind fun domain =>
      if x.params.length < domain.nParam then none else a.tree.stamp x := by
  rw [stamp, way]
  cases a.domains?.bind (·.get? x.stmt) with
  | none => rfl
  | some domain =>
    simp only [Option.bind_some]
    split <;> rfl

/-- Trees with the same domains give time stamps to instances under the same check. -/
theorem stamp_eq_iff {a b : Arena} {x : Iteration} {as bs : List Int} {condition : Prop}
    (same : b.domains? = a.domains?)
    (trees : b.tree.stamp x = some bs ↔ condition ∧ a.tree.stamp x = some as) :
    b.stamp x = some bs ↔ condition ∧ a.stamp x = some as := by
  rw [stamp_eq, stamp_eq, same]
  cases a.domains?.bind (·.get? x.stmt) with
  | none => simp
  | some domain =>
    simp only [Option.bind_some]
    split
    · simp
    · exact trees

theorem way_eq_some {a : Arena} {x : Iteration} {visits : List Visit}
    (h : a.way x = some visits) : a.tree.way x = some visits := by
  simp only [way, Option.bind_eq_some_iff] at h
  obtain ⟨domain, -, h⟩ := h
  split at h
  · cases h
  · exact h

theorem stamp_eq_some {a : Arena} {x : Iteration} {as : List Int}
    (h : a.stamp x = some as) : a.tree.stamp x = some as := by
  obtain ⟨visits, way, rfl⟩ := Option.map_eq_some_iff.mp h
  rw [Tree.stamp, a.way_eq_some way, Option.map_some]

end Arena

namespace Tree

/-! ## Ways and stamps node by node -/

/-- A way starts with its first node, and ends there or goes on in a child. -/
theorem way_eq_some {x : Iteration} {id arity : Nat} {kind : NodeKind} {child : Fin arity → Tree}
    {visits : List Visit} (h : (node id kind arity child).way x = some visits) :
    ∃ entries later, visits = ⟨id, entries⟩ :: later ∧
      (onward x child kind = some (entries, none) ∧ later = [] ∨
        ∃ i, onward x child kind = some (entries, some i) ∧ (child i).way x = some later) := by
  simp only [way, Option.bind_eq_bind, Option.bind_eq_some_iff] at h
  obtain ⟨⟨entries, next?⟩, step, rest⟩ := h
  cases next? with
  | none =>
    cases rest
    exact ⟨entries, [], rfl, .inl ⟨step, rfl⟩⟩
  | some i =>
    obtain ⟨later, below, same⟩ := Option.bind_eq_some_iff.mp rest
    cases same
    exact ⟨entries, later, rfl, .inr ⟨i, step, below⟩⟩

theorem way_ne_nil {x : Iteration} {t : Tree} {visits : List Visit} (h : t.way x = some visits) :
    visits ≠ [] := by
  cases t with
  | missing => simp [way] at h
  | node id kind arity child =>
    obtain ⟨entries, later, rfl, -⟩ := way_eq_some h
    simp

def after (x : Iteration) {arity : Nat} (child : Fin arity → Tree) :
    Option (Fin arity) → Option (List Int)
  | none => some []
  | some i => (child i).stamp x

@[simp] theorem after_some (x : Iteration) {arity : Nat} (child : Fin arity → Tree)
    (i : Fin arity) : after x child (some i) = (child i).stamp x := rfl

theorem stamp_node (x : Iteration) (id : Nat) (kind : NodeKind) {arity : Nat}
    (child : Fin arity → Tree) :
    (node id kind arity child).stamp x =
      (onward x child kind).bind fun r => (after x child r.2).map (r.1 ++ ·) := by
  rw [stamp, way]
  cases onward x child kind with
  | none => rfl
  | some r =>
    obtain ⟨entries, next?⟩ := r
    cases next? with
    | none => simp [after]
    | some i =>
      simp only [after, stamp, Option.bind_eq_bind, Option.bind_some]
      cases (child i).way x <;> simp

theorem onward_congr {x : Iteration} {arity : Nat} {child child' : Fin arity → Tree}
    (kind : NodeKind) (same : ∀ i, (child i).admits x = (child' i).admits x) :
    onward x child kind = onward x child' kind := by
  cases kind <;> simp [onward, same]

@[simp] theorem stamp_leaf (x : Iteration) (id : Nat) {arity : Nat} (child : Fin arity → Tree) :
    (node id .leaf arity child).stamp x = some [] := by
  simp [stamp_node, onward, after]

theorem stamp_band (x : Iteration) (id : Nat) (band : Band) {arity : Nat}
    (child : Fin arity → Tree) :
    (node id (.band band) arity child).stamp x =
      (band.schedule.get? x.stmt).bind fun exprs =>
        (after x child (first arity)).map (x.values exprs ++ ·) := by
  rw [stamp_node, onward]
  cases band.schedule.get? x.stmt <;> rfl

theorem stamp_band_eq_some {x : Iteration} {id arity : Nat} {band : Band} {child : Fin arity → Tree}
    {as : List Int} :
    (node id (.band band) arity child).stamp x = some as ↔
      ∃ exprs rest, band.schedule.get? x.stmt = some exprs ∧
        after x child (first arity) = some rest ∧ x.values exprs ++ rest = as := by
  simp [stamp_band, Option.bind_eq_some_iff]

def endsAtLeaf (x : Iteration) : Tree → Bool
  | missing _ => false
  | node _ kind _ child =>
    match onward x child kind with
    | none => false
    | some (_, none) => kind = .leaf
    | some (_, some i) => (child i).endsAtLeaf x

def EveryBand (P : Band → Prop) : Tree → Prop
  | missing _ => True
  | node _ kind _ child => (∀ band, kind = .band band → P band) ∧ ∀ i, (child i).EveryBand P

theorem EveryBand.imp {P Q : Band → Prop} (imp : ∀ band, P band → Q band) {t : Tree}
    (h : t.EveryBand P) : t.EveryBand Q := by
  induction t with
  | missing => trivial
  | node id kind arity child ih =>
    exact ⟨fun band eq => imp band (h.1 band eq), fun i => ih i (h.2 i)⟩

theorem EveryBand.and {P Q : Band → Prop} {t : Tree} (left : t.EveryBand P)
    (right : t.EveryBand Q) : t.EveryBand fun band => P band ∧ Q band := by
  induction t with
  | missing => trivial
  | node id kind arity child ih =>
    exact ⟨fun band eq => ⟨left.1 band eq, right.1 band eq⟩, fun i => ih i (left.2 i) (right.2 i)⟩

end Tree

/-- Two lists differ at a position that both have. -/
def Apart (as bs : List Int) : Prop :=
  ∃ pre a b as' bs', as = pre ++ a :: as' ∧ bs = pre ++ b :: bs' ∧ a ≠ b

namespace Apart

theorem of_ne {as bs : List Int} (length : as.length = bs.length) (ne : as ≠ bs) : Apart as bs := by
  induction as generalizing bs with
  | nil => cases bs <;> simp_all
  | cons a as ih =>
    cases bs with
    | nil => simp at length
    | cons b bs =>
      by_cases same : a = b
      · subst same
        obtain ⟨pre, x, y, as', bs', rfl, rfl, apart⟩ := ih (by simpa using length)
          (by simpa using ne)
        exact ⟨a :: pre, x, y, as', bs', rfl, rfl, apart⟩
      · exact ⟨[], a, b, as, bs, rfl, rfl, same⟩

theorem append_left {as bs : List Int} (pre : List Int) (h : Apart as bs) :
    Apart (pre ++ as) (pre ++ bs) := by
  obtain ⟨p, a, b, as', bs', rfl, rfl, ne⟩ := h
  exact ⟨pre ++ p, a, b, as', bs', by simp, by simp, ne⟩

theorem append_right {as bs : List Int} (cs ds : List Int) (h : Apart as bs) :
    Apart (as ++ cs) (bs ++ ds) := by
  obtain ⟨p, a, b, as', bs', rfl, rfl, ne⟩ := h
  exact ⟨p, a, b, as' ++ cs, bs' ++ ds, by simp, by simp, ne⟩

/-- Lists that start with equally many entries differ there, or the rests decide. -/
theorem append {as bs cs ds : List Int} (length : as.length = bs.length)
    (rest : as = bs → Apart cs ds) : Apart (as ++ cs) (bs ++ ds) := by
  by_cases same : as = bs
  · subst same
    exact (rest rfl).append_left as
  · exact (of_ne length same).append_right cs ds

theorem ne {as bs : List Int} (h : Apart as bs) : as ≠ bs := by
  obtain ⟨p, a, b, as', bs', rfl, rfl, ne⟩ := h
  simp [ne]

end Apart

def NodeKind.entryCount : NodeKind → Nat
  | .band b => b.nMembers
  | .sequence | .set => 1
  | _ => 0

namespace Tree

theorem onward_length {x : Iteration} {arity : Nat} {child : Fin arity → Tree} {kind : NodeKind}
    {entries : List Int} {next? : Option (Fin arity)}
    (arities : ∀ band, kind = .band band → band.HasArity)
    (h : onward x child kind = some (entries, next?)) :
    entries.length = kind.entryCount := by
  cases kind with
  | band band =>
    simp only [onward, Option.map_eq_some_iff, Prod.mk.injEq] at h
    obtain ⟨exprs, found, rfl, -⟩ := h
    obtain ⟨e, member, rfl⟩ := Option.map_eq_some_iff.mp found
    simpa [NodeKind.entryCount] using arities band rfl e (List.mem_of_find?_eq_some member)
  | sequence =>
    simp only [onward, Option.map_eq_some_iff, Prod.mk.injEq] at h
    obtain ⟨i, -, rfl, -⟩ := h
    rfl
  | set =>
    simp only [onward, Option.map_eq_some_iff, Prod.mk.injEq] at h
    obtain ⟨i, -, rfl, -⟩ := h
    rfl
  | domain domains =>
    cases h
    rfl
  | filter filter =>
    simp only [onward] at h
    split at h <;> simp_all [NodeKind.entryCount]
  | leaf =>
    cases h
    rfl

/-- Two instances that add the same entries at a node go on to the same child. -/
theorem onward_next {x y : Iteration} {arity : Nat} {child : Fin arity → Tree} {kind : NodeKind}
    {entries : List Int} {next next' : Option (Fin arity)}
    (hx : onward x child kind = some (entries, next))
    (hy : onward y child kind = some (entries, next')) : next = next' := by
  cases kind with
  | band band =>
    simp only [onward, Option.map_eq_some_iff, Prod.mk.injEq] at hx hy
    obtain ⟨_, -, -, rfl⟩ := hx
    obtain ⟨_, -, -, rfl⟩ := hy
    rfl
  | sequence =>
    simp only [onward, Option.map_eq_some_iff, Prod.mk.injEq] at hx hy
    obtain ⟨i, -, rfl, rfl⟩ := hx
    obtain ⟨j, -, same, rfl⟩ := hy
    simp only [List.cons.injEq, Nat.cast_inj, and_true] at same
    rw [Fin.ext same]
  | set =>
    simp only [onward, Option.map_eq_some_iff, Prod.mk.injEq] at hx hy
    obtain ⟨i, -, rfl, rfl⟩ := hx
    obtain ⟨j, -, same, rfl⟩ := hy
    simp only [List.cons.injEq, Nat.cast_inj, and_true] at same
    rw [Fin.ext same]
  | domain domains => simp_all [onward]
  | filter filter =>
    simp only [onward] at hx hy
    split at hx <;> split at hy <;> simp_all
  | leaf => simp_all [onward]

/-- Two instances that a tree schedules have time stamps that differ at a position, or the same time
stamp and the same end. -/
theorem apart_or_same {x y : Iteration} {t : Tree} (arities : t.EveryBand Band.HasArity)
    {as bs : List Int} (hx : t.stamp x = some as) (hy : t.stamp y = some bs) :
    Apart as bs ∨ as = bs ∧ t.endsAtLeaf x = t.endsAtLeaf y := by
  induction t generalizing as bs with
  | missing => simp [stamp, way] at hx
  | node id kind arity child ih =>
    rw [stamp_node] at hx hy
    simp only [Option.bind_eq_some_iff, Option.map_eq_some_iff] at hx hy
    obtain ⟨⟨ex, nx⟩, ox, rx, bx, rfl⟩ := hx
    obtain ⟨⟨ey, ny⟩, oy, ry, by', rfl⟩ := hy
    have length : ex.length = ey.length := by
      rw [onward_length arities.1 ox, onward_length arities.1 oy]
    by_cases same : ex = ey
    · subst same
      obtain rfl : nx = ny := onward_next ox oy
      cases nx with
      | none =>
        cases bx
        cases by'
        exact .inr ⟨rfl, by simp [endsAtLeaf, ox, oy]⟩
      | some i =>
        rcases ih i (arities.2 i) bx by' with apart | ⟨rfl, ends⟩
        · exact .inl (apart.append_left _)
        · exact .inr ⟨rfl, by simpa [endsAtLeaf, ox, oy] using ends⟩
    · exact .inl ((Apart.of_ne length same).append_right _ _)

end Tree

/-! ## Trees that differ in numbering, marks and loop options only -/

/-- The kind without marks and loop options. -/
def NodeKind.plain : NodeKind → NodeKind
  | .band b => .band (.ofSchedule b.members b.schedule)
  | kind => kind

namespace Tree

/-- The trees have the same shape and the same kinds but for marks and loop options. -/
inductive Alike : Tree → Tree → Prop where
  | node {id id' : Nat} {kind kind' : NodeKind} {arity : Nat} {child child' : Fin arity → Tree}
    (kinds : kind.plain = kind'.plain) (children : ∀ i, Alike (child i) (child' i)) :
    Alike (.node id kind arity child) (.node id' kind' arity child')

inductive Renumbered : Tree → Tree → Prop where
  | node {id id' : Nat} {kind : NodeKind} {arity : Nat} {child child' : Fin arity → Tree}
    (children : ∀ i, Renumbered (child i) (child' i)) :
    Renumbered (.node id kind arity child) (.node id' kind arity child')

theorem Renumbered.alike {s t : Tree} (h : Renumbered s t) : Alike s t := by
  induction h with
  | node children ih => exact .node rfl ih

theorem Renumbered.trans {s t u : Tree} (first : Renumbered s t) (second : Renumbered t u) :
    Renumbered s u := by
  induction first generalizing u with
  | node children ih =>
    cases second with
    | node children' => exact .node fun i => ih i (children' i)

/-- What is like a band is a band with the same members and expressions. -/
theorem Alike.band {id arity : Nat} {band : Band} {child : Fin arity → Tree} {t : Tree}
    (h : Alike (.node id (.band band) arity child) t) :
    ∃ id' band' child', t = .node id' (.band band') arity child' ∧
      band'.members = band.members ∧ band'.schedule = band.schedule ∧
      ∀ i, Alike (child i) (child' i) := by
  cases h with
  | @node _ id' _ kind' _ _ child' kinds children =>
    cases kind' with
    | band band' =>
      simp only [NodeKind.plain, Band.ofSchedule, NodeKind.band.injEq, Band.mk.injEq] at kinds
      exact ⟨id', band', child', rfl, kinds.1.symm, kinds.2.1.symm, children⟩
    | _ => simp [NodeKind.plain] at kinds

theorem onward_plain (x : Iteration) {arity : Nat} (child : Fin arity → Tree) (kind : NodeKind) :
    onward x child kind.plain = onward x child kind := by
  cases kind <;> rfl

theorem Alike.onward {x : Iteration} {arity : Nat} {child child' : Fin arity → Tree}
    {kind kind' : NodeKind} (kinds : kind.plain = kind'.plain)
    (same : ∀ i, (child i).admits x = (child' i).admits x) :
    Tree.onward x child kind = Tree.onward x child' kind' := by
  rw [← onward_plain, kinds, onward_plain, onward_congr kind' same]

theorem Alike.admits {s t : Tree} (h : Alike s t) (x : Iteration) : s.admits x = t.admits x := by
  cases h with
  | @node id id' kind kind' arity child child' kinds children =>
    cases kind <;> cases kind' <;> simp_all [NodeKind.plain, Tree.admits]

theorem Alike.stamp {s t : Tree} (h : Alike s t) (x : Iteration) : s.stamp x = t.stamp x := by
  induction h with
  | node kinds children ih =>
    rw [stamp_node, stamp_node, Alike.onward kinds fun i => (children i).admits x]
    refine congrArg _ (funext fun r => ?_)
    cases r.2 with
    | none => rfl
    | some i => simp [after, ih]

theorem plain_eq_leaf {kind : NodeKind} : kind.plain = .leaf ↔ kind = .leaf := by
  cases kind <;> simp [NodeKind.plain]

theorem Alike.endsAtLeaf {s t : Tree} (h : Alike s t) (x : Iteration) :
    s.endsAtLeaf x = t.endsAtLeaf x := by
  induction h with
  | node kinds children ih =>
    simp only [Tree.endsAtLeaf, Alike.onward kinds fun i => (children i).admits x]
    split
    · rfl
    · exact decide_eq_decide.mpr (by rw [← plain_eq_leaf, kinds, plain_eq_leaf])
    · exact ih _

/-- Of the trees below a node, a step sees which instances they take. -/
theorem step_congr {stmt arity : Nat} {point params : List Int} {child child' : Fin arity → Tree}
    (kind : NodeKind)
    (same : ∀ i, (child i).accepts stmt point params = (child' i).accepts stmt point params) :
    step child stmt point params kind = step child' stmt point params kind := by
  have branch : branch? child stmt point params = branch? child' stmt point params := by
    simp only [branch?, same]
  cases kind <;> simp only [step, step.branching, branch]

namespace Alike

variable {s t : Tree}

theorem accepts (h : Alike s t) (stmt : Nat) (point params : List Int) :
    s.accepts stmt point params = t.accepts stmt point params := by
  cases h with
  | @node id id' kind kind' arity child child' kinds children =>
    cases kind <;> cases kind' <;> simp_all [NodeKind.plain, Tree.accepts]

theorem step {stmt arity : Nat} {point params : List Int} {child child' : Fin arity → Tree}
    {kind kind' : NodeKind} (kinds : kind.plain = kind'.plain)
    (children : ∀ i, Alike (child i) (child' i)) :
    Tree.step child stmt point params kind = Tree.step child' stmt point params kind' := by
  have plain : ∀ kind, Tree.step child' stmt point params kind =
      Tree.step child' stmt point params kind.plain := by
    intro kind
    cases kind <;> rfl
  rw [step_congr kind fun i => (children i).accepts stmt point params, plain kind, kinds,
    ← plain kind']

/-- Whatever comes of the walks down two trees, they give the same entries. -/
theorem entries (h : Alike s t) (stmt : Nat) (point params : List Int) :
    (fun visits => visits.flatMap (·.entries)) <$> s.visits stmt point params =
      (fun visits => visits.flatMap (·.entries)) <$> t.visits stmt point params := by
  induction h with
  | node kinds children ih =>
    simp only [visits, step kinds children, map_bind]
    refine bind_congr fun r => ?_
    obtain ⟨entries, next?⟩ := r
    cases next? with
    | none => simp
    | some i =>
      have below := congrArg (Functor.map (entries ++ ·)) (ih i)
      simpa [Functor.map_map] using below

end Alike

end Tree

end LoopNest
