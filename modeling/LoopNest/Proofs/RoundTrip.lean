import LoopNest.Json.Scop
import LoopNest.Proofs.Readers

/-! The numbers of a scop are words: coefficients, widths and divisors are signed, counts, statement
numbers and places in the arena are unsigned. Given this, each part of a scop is read back from its
document, and so is the scop from both of its texts. Main theorem: `Scop.load_ofScop`. -/

namespace LoopNest

section Words

def Affine.OfWords (e : Affine) : Prop :=
  Word.Fits e.constant ∧ (∀ c ∈ e.coeffs, Word.Fits c) ∧ ∀ c ∈ e.paramCoeffs, Word.Fits c

instance (e : Affine) : Decidable e.OfWords := inferInstanceAs (Decidable (_ ∧ _))

def Quasi.OfWords : Quasi → Prop
  | affine e => e.OfWords
  | plus rest c n d => rest.OfWords ∧ Word.Fits c ∧ n.OfWords ∧ Word.Fits d

instance Quasi.decidableOfWords : (q : Quasi) → Decidable q.OfWords
  | affine e => inferInstanceAs (Decidable e.OfWords)
  | plus rest _ n _ =>
    have := decidableOfWords rest
    have := decidableOfWords n
    inferInstanceAs (Decidable (_ ∧ _))

def Polyhedron.OfWords (s : Polyhedron) : Prop :=
  Word.FitsUnsigned s.nDim ∧ Word.FitsUnsigned s.nParam ∧ ∀ c ∈ s.constraints, c.expr.OfWords

instance (s : Polyhedron) : Decidable s.OfWords := inferInstanceAs (Decidable (_ ∧ _))

def AccessMap.OfWords (m : AccessMap) : Prop :=
  Word.FitsUnsigned m.nIn ∧ Word.FitsUnsigned m.nParam ∧ ∀ e ∈ m.outputs, e.OfWords

instance (m : AccessMap) : Decidable m.OfWords := inferInstanceAs (Decidable (_ ∧ _))

/-- Statement numbers are words, and what is said of them has a property. -/
def StmtMap.OfWords {α : Type} (P : α → Prop) (m : StmtMap α) : Prop :=
  ∀ entry ∈ m.entries, Word.FitsUnsigned entry.1 ∧ P entry.2

instance {α : Type} {P : α → Prop} [DecidablePred P] (m : StmtMap α) :
    Decidable (m.OfWords P) :=
  inferInstanceAs (Decidable (∀ entry ∈ m.entries, _))

def Band.OfWords (band : Band) : Prop := band.schedule.OfWords fun exprs => ∀ e ∈ exprs, e.OfWords

instance (band : Band) : Decidable band.OfWords :=
  inferInstanceAs (Decidable (StmtMap.OfWords _ _))

def TileFilter.OfWords (t : TileFilter) : Prop :=
  Word.Fits t.width ∧ t.guards.OfWords fun guard? => ∀ guard ∈ guard?, ∀ e ∈ guard, e.OfWords

instance (t : TileFilter) : Decidable t.OfWords := inferInstanceAs (Decidable (_ ∧ _))

def Filter.OfWords : Filter → Prop
  | statements stmts => stmts.OfWords fun _ => True
  | tiles t => t.OfWords

instance : (filter : Filter) → Decidable filter.OfWords
  | .statements stmts => inferInstanceAs (Decidable (stmts.OfWords fun _ => True))
  | .tiles t => inferInstanceAs (Decidable t.OfWords)

def NodeKind.OfWords : NodeKind → Prop
  | domain domains => domains.OfWords Polyhedron.OfWords
  | band b => b.OfWords
  | filter f => f.OfWords
  | sequence | set | leaf => True

instance : (kind : NodeKind) → Decidable kind.OfWords
  | .domain domains => inferInstanceAs (Decidable (domains.OfWords Polyhedron.OfWords))
  | .band b => inferInstanceAs (Decidable b.OfWords)
  | .filter f => inferInstanceAs (Decidable f.OfWords)
  | .sequence | .set | .leaf => inferInstanceAs (Decidable True)

def Arena.OfWords (a : Arena) : Prop :=
  Word.FitsUnsigned a.root ∧
    ∀ node ∈ a.nodes.toList, node.kind.OfWords ∧ ∀ id ∈ node.children, Word.FitsUnsigned id

instance (a : Arena) : Decidable a.OfWords := inferInstanceAs (Decidable (_ ∧ _))

def Statement.OfWords (s : Statement) : Prop :=
  Word.FitsUnsigned s.id ∧ s.domain.OfWords ∧ ∀ access ∈ s.accesses, access.relation.OfWords

instance (s : Statement) : Decidable s.OfWords := inferInstanceAs (Decidable (_ ∧ _))

def Scop.OfWords (scop : Scop) : Prop :=
  scop.context.OfWords ∧ (∀ s ∈ scop.statements, s.OfWords) ∧ scop.schedule.OfWords

instance (scop : Scop) : Decidable scop.OfWords := inferInstanceAs (Decidable (_ ∧ _))

end Words

namespace Json

theorem reads_ints {values : List Int} (fits : ∀ value ∈ values, Word.Fits value) :
    Reads (Reader.list Reader.int) (ofInts values) values :=
  .list fun value member => .int (fits value member)

theorem reads_nats {values : List Nat} (fits : ∀ value ∈ values, Word.FitsUnsigned value) :
    Reads (Reader.list Reader.nat) (ofNats values) values :=
  .list fun value member => .nat (fits value member)

theorem reads_texts (values : List String) :
    Reads (Reader.list Reader.text) (ofTexts values) values :=
  .list fun value _ => .text value

theorem reads_affine {e : Affine} (words : e.OfWords) : Reads Reader.affine (ofAffine e) e := by
  have constant := Reads.int words.1
  have coeffs := reads_ints words.2.1
  have paramCoeffs := reads_ints words.2.2
  refine .record ?_ fun depth within => ?_
  · simp [constant.written, coeffs.written, paramCoeffs.written]
  · simp only [List.forall_mem_cons] at within
    rw [Reader.affine, members_record (by simp) (by simp)]
    simp [constant.reads, coeffs.reads, paramCoeffs.reads, within]

theorem reads_relation (kind : Relation) : Reads Reader.relation (ofRelation kind) kind := by
  cases kind with
  | inequality => exact .oneOf rfl
  | equality => exact .oneOf rfl

theorem reads_constraint {c : Constraint} (words : c.expr.OfWords) :
    Reads Reader.constraint (ofConstraint c) c := by
  have expr := reads_affine words
  have kind := reads_relation c.kind
  refine .record ?_ fun depth within => ?_
  · simp [expr.written, kind.written]
  · simp only [List.forall_mem_cons] at within
    rw [Reader.constraint, members_record (by simp) (by simp)]
    simp [expr.reads, kind.reads, within]

theorem reads_polyhedron {s : Polyhedron} (words : s.OfWords) :
    Reads Reader.polyhedron (ofPolyhedron s) s := by
  have nDim := Reads.nat words.1
  have nParam := Reads.nat words.2.1
  have constraints := Reads.list fun c member => reads_constraint (words.2.2 c member)
  refine .record ?_ fun depth within => ?_
  · simp [nDim.written, nParam.written, constraints.written]
  · simp only [List.forall_mem_cons] at within
    rw [Reader.polyhedron, members_record (by simp) (by simp)]
    simp [nDim.reads, nParam.reads, constraints.reads, within]

theorem reads_accessMap {m : AccessMap} (words : m.OfWords) :
    Reads Reader.accessMap (ofAccessMap m) m := by
  have nIn := Reads.nat words.1
  have nParam := Reads.nat words.2.1
  have outputs := Reads.list fun e member => reads_affine (words.2.2 e member)
  refine .record ?_ fun depth within => ?_
  · simp [nIn.written, nParam.written, outputs.written]
  · simp only [List.forall_mem_cons] at within
    rw [Reader.accessMap, members_record (by simp) (by simp)]
    simp [nIn.reads, nParam.reads, outputs.reads, within]

section Quasi

def ofTerm (t : FloorTerm) : Json := ofFloorTerm t.coeff (ofQuasi t.numerator) t.denominator

theorem ofQuasiTerms_eq (q : Quasi) : ofQuasiTerms q = q.terms.map ofTerm := by
  induction q with
  | affine e => rfl
  | plus rest c n d ihRest _ => simp [ofQuasiTerms, Quasi.terms, ihRest, ofTerm, ofQuasi]

def Reader.floorTerm : Reader FloorTerm
  | depth + 1, j => do
    let t ← j.members ["coeff", "numerator", "denominator"]
    let coeff ← t.required "coeff" int depth
    let numerator ← t.required "numerator" quasi depth
    let denominator ← t.required "denominator" int depth
    return ⟨coeff, numerator, denominator⟩
  | 0, _ => none

theorem Reader.quasi_eq (depth : Nat) (j : Json) :
    Reader.quasi (depth + 3) j = (do
      let m ← j.members ["affine", "divs"]
      let base ← m.required "affine" affine (depth + 2)
      let terms ← m.required "divs" (list floorTerm) (depth + 2)
      return .ofTerms base terms) := by
  have term (item : Json) : floorTerm (depth + 1) item = (do
      let t ← item.members ["coeff", "numerator", "denominator"]
      let coeff ← t.required "coeff" int depth
      let inner ← t.lookup "numerator"
      let numerator ← quasi depth inner
      let denominator ← t.required "denominator" int depth
      return ⟨coeff, numerator, denominator⟩) := by
    rw [floorTerm]
    refine bind_congr fun t => bind_congr fun coeff => ?_
    exact Option.bind_assoc _ _ _
  rw [quasi]
  refine bind_congr fun m => bind_congr fun base => ?_
  rw [Members.required]
  cases m.lookup "divs" with
  | none => rfl
  | some divs =>
    cases divs with
    | array items =>
      simp only [Option.bind_some, list, funext term]
      rfl
    | _ => rfl

theorem two_le_depth_ofAffine (e : Affine) : 2 ≤ (ofAffine e).depth := by
  simp [ofAffine, record, ofInts, depth, fieldDepth]

theorem reads_floorTerm {t : FloorTerm} (coeff : Word.Fits t.coeff)
    (denominator : Word.Fits t.denominator)
    (numerator : Reads Reader.quasi (ofQuasi t.numerator) t.numerator) :
    Reads Reader.floorTerm (ofTerm t) t := by
  have coeff := Reads.int coeff
  have denominator := Reads.int denominator
  refine .record ?_ fun depth within => ?_
  · simp [coeff.written, numerator.written, denominator.written]
  · simp only [List.forall_mem_cons] at within
    rw [Reader.floorTerm, members_record (by simp) (by simp)]
    simp [coeff.reads, numerator.reads, denominator.reads, within]

/-- An expression is read back if its floor terms are. -/
theorem reads_quasi_of_terms {q : Quasi} (base : q.base.OfWords)
    (terms : ∀ t ∈ q.terms, Reads Reader.floorTerm (ofTerm t) t) :
    Reads Reader.quasi (ofQuasi q) q := by
  have base := reads_affine base
  have divs := Reads.list terms
  rw [ofQuasi, ofQuasiParts, ofQuasiTerms_eq]
  refine .record ?_ fun depth within => ?_
  · simp [base.written, divs.written]
  · simp only [List.forall_mem_cons] at within
    obtain ⟨inner, rfl⟩ := Nat.exists_eq_add_of_le' ((two_le_depth_ofAffine q.base).trans within.1)
    rw [Reader.quasi_eq, members_record (by simp) (by simp)]
    simp [base.reads, divs.reads, within]

theorem base_ofWords {q : Quasi} (words : q.OfWords) : q.base.OfWords := by
  induction q with
  | affine e => exact words
  | plus rest c n d ihRest _ => exact ihRest words.1

theorem reads_terms {q : Quasi} (words : q.OfWords) :
    ∀ t ∈ q.terms, Reads Reader.floorTerm (ofTerm t) t := by
  induction q with
  | affine e => simp [Quasi.terms]
  | plus rest c n d ihRest ihNumerator =>
    obtain ⟨ofRest, coeff, numerator, denominator⟩ := words
    have last := reads_floorTerm (t := ⟨c, n, d⟩) coeff denominator
      (reads_quasi_of_terms (base_ofWords numerator) (ihNumerator numerator))
    intro t member
    rcases List.mem_append.mp member with before | here
    · exact ihRest ofRest t before
    · rw [List.mem_singleton.mp here]
      exact last

theorem reads_quasi {q : Quasi} (words : q.OfWords) : Reads Reader.quasi (ofQuasi q) q :=
  reads_quasi_of_terms (base_ofWords words) (reads_terms words)

theorem reads_quasis {qs : List Quasi} (words : ∀ q ∈ qs, q.OfWords) :
    Reads (Reader.list Reader.quasi) (ofQuasis qs) qs :=
  .list fun q member => reads_quasi (words q member)

end Quasi

section Schedule

theorem reads_member (m : Member) : Reads Reader.member (ofMember m) m := by
  have permutable := Reads.bool m.permutable
  have coincident := Reads.bool m.coincident
  refine .record ?_ fun depth within => ?_
  · simp [permutable.written, coincident.written]
  · simp only [List.forall_mem_cons] at within
    rw [Reader.member, members_record (by simp) (by simp)]
    simp [permutable.reads, coincident.reads, within]

theorem reads_mark (mark : Mark) : Reads Reader.mark (ofMark mark) mark := by
  cases mark with
  | tiles label => exact .tagged (.text label) fun depth => by simp [Reader.mark, Choice.read]
  | points label => exact .tagged (.text label) fun depth => by simp [Reader.mark, Choice.read]
  | simd => exact ⟨.text "Simd", fun depth _ => by simp [ofMark, Reader.mark, Choice.isUnit]⟩

theorem reads_loopOption (option : LoopOption) :
    Reads Reader.loopOption (ofLoopOption option) option := by
  cases option with
  | standard => exact .oneOf rfl
  | unroll => exact .oneOf rfl
  | noUnroll => exact .oneOf rfl

theorem reads_tileKind (kind : TileKind) : Reads Reader.tileKind (ofTileKind kind) kind := by
  cases kind with
  | full => exact .oneOf rfl
  | partly => exact .oneOf rfl

theorem reads_band {band : Band} (words : band.OfWords) :
    Reads Reader.band (ofBand band) band := by
  have members := Reads.list fun m (_ : m ∈ band.members) => reads_member m
  have schedule := Reads.stmtMap (fun entry member => (words entry member).1)
    fun entry member => reads_quasis (words entry member).2
  have marks := Reads.list fun m (_ : m ∈ band.marks) => reads_mark m
  have option := reads_loopOption band.loopOption
  refine .record ?_ fun depth within => ?_
  · simp [members.written, schedule.written, marks.written, option.written]
  · simp only [List.forall_mem_cons] at within
    rw [Reader.band, members_record (by simp) (by simp)]
    simp [members.reads, schedule.reads, marks.reads, option.reads, within]

theorem reads_stmtSet {stmts : StmtSet} (words : stmts.OfWords fun _ => True) :
    Reads Reader.stmtSet (ofStmtSet stmts) stmts := by
  have keys : Reads (Reader.list Reader.nat) (ofNats stmts.keys) stmts.keys :=
    reads_nats (List.forall_mem_map.mpr fun entry member => (words entry member).1)
  have entries : stmts.keys.map (·, ()) = stmts.entries := by
    rw [StmtMap.keys, List.map_map]
    exact List.map_id _
  refine ⟨keys.written, fun depth within => ?_⟩
  rw [Reader.stmtSet, ofStmtSet, keys.reads depth within, Option.map_some, StmtSet.ofList, entries,
    StmtMap.ofList_entries]

def ofTileFilter (t : TileFilter) : Json :=
  record [("kind", ofTileKind t.kind), ("width", int t.width),
    ("guards", ofStmtMap (ofOption ofQuasis) t.guards)]

theorem reads_tileFilter {t : TileFilter} (words : t.OfWords) :
    Reads Reader.tileFilter (ofTileFilter t) t := by
  have kind := reads_tileKind t.kind
  have width := Reads.int words.1
  have guards := Reads.stmtMap (fun entry member => (words.2 entry member).1)
    fun entry member => Reads.optional fun guard present =>
      ⟨reads_quasis ((words.2 entry member).2 guard present), by simp [ofQuasis]⟩
  refine .record ?_ fun depth within => ?_
  · simp [kind.written, width.written, guards.written]
  · simp only [List.forall_mem_cons] at within
    rw [Reader.tileFilter, members_record (by simp) (by simp)]
    simp [kind.reads, width.reads, guards.reads, within]

theorem reads_filter {filter : Filter} (words : filter.OfWords) :
    Reads Reader.filter (ofFilter filter) filter := by
  cases filter with
  | statements stmts =>
    exact .tagged (reads_stmtSet words) fun depth => by simp [Reader.filter, Choice.read]
  | tiles t =>
    exact .tagged (reads_tileFilter words) fun depth => by simp [Reader.filter, Choice.read]

theorem reads_nodeKind {kind : NodeKind} (words : kind.OfWords) :
    Reads Reader.nodeKind (ofNodeKind kind) kind := by
  have unit (name : String) (kind : NodeKind)
      (named : ∀ depth, Reader.nodeKind depth (text name) = some kind) :
      Reads Reader.nodeKind (text name) kind :=
    ⟨.text name, fun depth _ => named depth⟩
  cases kind with
  | domain domains =>
    have content := Reads.stmtMap (fun entry member => (words entry member).1)
      fun entry member => reads_polyhedron (words entry member).2
    exact .tagged content fun depth => by simp [Reader.nodeKind, Choice.read]
  | band b => exact .tagged (reads_band words) fun depth => by simp [Reader.nodeKind, Choice.read]
  | sequence => exact unit _ _ fun depth => by simp [Reader.nodeKind, Choice.isUnit]
  | set => exact unit _ _ fun depth => by simp [Reader.nodeKind, Choice.isUnit]
  | filter f =>
    exact .tagged (reads_filter words) fun depth => by simp [Reader.nodeKind, Choice.read]
  | leaf => exact unit _ _ fun depth => by simp [Reader.nodeKind, Choice.isUnit]

theorem reads_node {node : Node} (kind : node.kind.OfWords)
    (children : ∀ id ∈ node.children, Word.FitsUnsigned id) :
    Reads Reader.node (ofNode node) node := by
  have kind := reads_nodeKind kind
  have children := reads_nats children
  refine .record ?_ fun depth within => ?_
  · simp [kind.written, children.written]
  · simp only [List.forall_mem_cons] at within
    rw [Reader.node, members_record (by simp) (by simp)]
    simp [kind.reads, children.reads, within]

theorem reads_arena {a : Arena} (words : a.OfWords) : Reads Reader.arena (ofArena a) a := by
  have nodes := Reads.list fun node member => reads_node (words.2 node member).1
    (words.2 node member).2
  have root := Reads.nat words.1
  refine .record ?_ fun depth within => ?_
  · simp [nodes.written, root.written]
  · simp only [List.forall_mem_cons] at within
    rw [Reader.arena, members_record (by simp) (by simp)]
    simp [nodes.reads, root.reads, within]

end Schedule

section Scop

theorem reads_accessKind (kind : AccessKind) :
    Reads Reader.accessKind (ofAccessKind kind) kind := by
  cases kind with
  | read => exact .oneOf rfl
  | write => exact .oneOf rfl

theorem reads_access {access : Access} (words : access.relation.OfWords) :
    Reads Reader.access (ofAccess access) access := by
  have array := Reads.text access.array
  have kind := reads_accessKind access.kind
  have relation := reads_accessMap words
  refine .record ?_ fun depth within => ?_
  · simp [array.written, kind.written, relation.written]
  · simp only [List.forall_mem_cons] at within
    rw [Reader.access, members_record (by simp) (by simp)]
    simp [array.reads, kind.reads, relation.reads, within]

theorem reads_statement {s : Statement} (words : s.OfWords) :
    Reads Reader.statement (ofStatement s) s := by
  have id := Reads.nat words.1
  have name := Reads.text s.name
  have iterators := reads_texts s.iterators
  have domain := reads_polyhedron words.2.1
  have accesses := Reads.list fun access member => reads_access (words.2.2 access member)
  refine .record ?_ fun depth within => ?_
  · simp [id.written, name.written, iterators.written, domain.written, accesses.written]
  · simp only [List.forall_mem_cons] at within
    rw [Reader.statement, members_record (by simp) (by simp)]
    simp [id.reads, name.reads, iterators.reads, domain.reads, accesses.reads, within]

theorem reads_scop {scop : Scop} (words : scop.OfWords) :
    Reads Reader.scop (ofScop scop) scop := by
  have name := Reads.text scop.name
  have parameters := reads_texts scop.parameters
  have context := reads_polyhedron words.1
  have statements := Reads.list fun s member => reads_statement (words.2.1 s member)
  have schedule := reads_arena words.2.2
  refine .record ?_ fun depth within => ?_
  · simp [name.written, parameters.written, context.written, statements.written, schedule.written]
  · simp only [List.forall_mem_cons] at within
    rw [Reader.scop, members_record (by simp) (by simp)]
    simp [name.reads, parameters.reads, context.reads, statements.reads, schedule.reads, within]

end Scop

end Json

theorem Scop.load_of_parse {scop : Scop} {text : String} (valid : scop.validate = .ok ())
    (words : scop.OfWords) (nested : (Json.ofScop scop).depth ≤ Json.depthLimit)
    (parsed : Json.parse? text = some (Json.ofScop scop)) : Scop.load text = .ok scop := by
  have read := (Json.reads_scop words).reads Json.depthLimit nested
  simp [Scop.load, Json.readText?, parsed, read, valid]

/-- A valid scop of words that is not nested too deeply is read back, node for node, from the text
of its document without blanks and from the one with a line for each item and field. -/
theorem Scop.load_ofScop (scop : Scop) (valid : scop.validate = .ok ()) (words : scop.OfWords)
    (nested : (Json.ofScop scop).depth ≤ Json.depthLimit) :
    Scop.load (Json.ofScop scop).compact = .ok scop ∧
      Scop.load ((Json.ofScop scop).pretty 0) = .ok scop := by
  have written := (Json.reads_scop words).written
  exact ⟨load_of_parse valid words nested written.parse?_compact,
    load_of_parse valid words nested (written.parse?_pretty 0)⟩

/-- A scop with extreme numbers, nested floors, escapes in its names, guards that are given, null or
missing, and nodes that are not reached. -/
def Scop.varied : Scop :=
  let last := 18446744073709551615
  let domain : Polyhedron := ⟨1, 1, [.nonneg ⟨0, [1], [0]⟩, .nonneg ⟨-1, [-1], [1]⟩,
    .zero ⟨Word.greatest, [Word.least], [0]⟩]⟩
  let inner : Quasi := .plus (.affine ⟨-7, [1], [0]⟩) Word.least (.affine ⟨0, [1], [1]⟩) 3
  let outer : Quasi := .plus (.plus (.affine ⟨0, [0], [1]⟩) 2 inner Word.greatest) (-1) inner 5
  let band : Band := ⟨[⟨true, false⟩], .ofList [(9, [outer])],
    [.tiles "1st \"level\"", .points "\t", .simd], .noUnroll⟩
  { name := "a\\b\n\x01"
    parameters := ["N"]
    context := ⟨0, 1, [.nonneg ⟨-2, [], [1]⟩]⟩
    statements :=
      [⟨9, "S", ["i"], domain, [⟨"A", .read, .projection 1 1 [0]⟩, ⟨"A", .write, ⟨1, 1, []⟩⟩]⟩,
        ⟨last, "", ["i"], domain, []⟩]
    schedule := ⟨#[⟨.leaf, [77]⟩, ⟨.band band, []⟩,
      ⟨.domain (.ofList [(9, domain), (last, domain)]), [4]⟩, ⟨.set, [0, 0]⟩, ⟨.sequence, [6, 5]⟩,
      ⟨.filter (.statements (.ofList [last])), []⟩, ⟨.filter (.statements (.ofList [9])), [7]⟩,
      ⟨.band band, [8]⟩, ⟨.sequence, [10, 9]⟩,
      ⟨.filter (.tiles ⟨.partly, -4, .empty⟩), [11]⟩,
      ⟨.filter (.tiles ⟨.full, 4, .ofList [(9, some [inner, outer]), (last, none)]⟩), [12]⟩,
      ⟨.leaf, []⟩, ⟨.leaf, []⟩], 2⟩ }

theorem Scop.varied_load_ofScop : varied.validate = .ok () ∧ varied.OfWords ∧
    (Json.ofScop varied).depth ≤ Json.depthLimit ∧
    Scop.load (Json.ofScop varied).compact = .ok varied ∧
    Scop.load ((Json.ofScop varied).pretty 0) = .ok varied := by
  have valid : varied.validate = .ok () := by decide +kernel
  have words : varied.OfWords := by decide +kernel
  have nested : (Json.ofScop varied).depth ≤ Json.depthLimit := by decide +kernel
  exact ⟨valid, words, nested, load_ofScop varied valid words nested⟩

end LoopNest
