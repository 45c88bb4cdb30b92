import LoopNest.Proofs.Coverage
import LoopNest.Proofs.Iterators

/-! Where the loops of a band may be exchanged, dependences go forward along each of them, and they
stay where a loop is coincident. Then an instance that comes before another still does so when the
loops are reordered or tiled. A vector loop is coincident, so the filters for full and partial tiles
see both instances in the same way. -/

namespace LoopNest

/-- The first list is the smaller one at the first position at which they differ. -/
def Before : List Int → List Int → Prop
  | a :: as, b :: bs => a < b ∨ a = b ∧ Before as bs
  | _, _ => False

namespace Before

variable {as bs cs ds : List Int}

theorem precedes (h : Before as bs) : precedes as bs = true := by
  induction as generalizing bs with
  | nil => exact h.elim
  | cons a as ih =>
    cases bs with
    | nil => exact h.elim
    | cons b bs =>
      rcases h with lt | ⟨rfl, rest⟩
      · simp [LoopNest.precedes, lt]
      · simp [LoopNest.precedes, ih rest]

/-- Of two lists that differ at a common position, the one that precedes is before the other. -/
theorem of_precedes (apart : Apart as bs) (h : LoopNest.precedes as bs = true) : Before as bs := by
  obtain ⟨pre, a, b, as', bs', rfl, rfl, ne⟩ := apart
  induction pre with
  | nil =>
    simp only [List.nil_append, LoopNest.precedes, Bool.or_eq_true, decide_eq_true_eq,
      Bool.and_eq_true] at h
    exact .inl (h.resolve_right fun same => ne same.1)
  | cons p pre ih => exact .inr ⟨rfl, ih (by simpa [LoopNest.precedes] using h)⟩

theorem append_right (h : Before as bs) (cs ds : List Int) : Before (as ++ cs) (bs ++ ds) := by
  induction as generalizing bs with
  | nil => exact h.elim
  | cons a as ih =>
    cases bs with
    | nil => exact h.elim
    | cons b bs => exact h.imp_right (And.imp_right ih)

theorem append_left (pre : List Int) (h : Before as bs) : Before (pre ++ as) (pre ++ bs) := by
  induction pre with
  | nil => exact h
  | cons p pre ih => exact .inr ⟨rfl, ih⟩

/-- Lists that start with equally many entries are in order there, or they start with the same
entries and the rests are in order. -/
theorem of_append (length : as.length = bs.length) (h : Before (as ++ cs) (bs ++ ds)) :
    Before as bs ∨ as = bs ∧ Before cs ds := by
  induction as generalizing bs with
  | nil =>
    cases bs with
    | nil => exact .inr ⟨rfl, h⟩
    | cons => simp at length
  | cons a as ih =>
    cases bs with
    | nil => simp at length
    | cons b bs =>
      rcases h with lt | ⟨rfl, rest⟩
      · exact .inl (.inl lt)
      · rcases ih (by simpa using length) rest with first | ⟨rfl, later⟩
        · exact .inl (.inr ⟨rfl, first⟩)
        · exact .inr ⟨rfl, later⟩

/-- If no entry grows smaller, the rests decide only when all entries are equal. -/
theorem append_of_le (le : List.Forall₂ (· ≤ ·) as bs) (rest : as = bs → Before cs ds) :
    Before (as ++ cs) (bs ++ ds) := by
  induction le with
  | nil => exact rest rfl
  | @cons a b as bs head _ ih =>
    rcases Int.lt_or_eq_of_le head with lt | rfl
    · exact .inl lt
    · exact .inr ⟨rfl, ih fun same => rest (by rw [same])⟩

theorem irrefl (as : List Int) : ¬ Before as as := by
  induction as with
  | nil => exact id
  | cons a as ih => simpa [Before] using ih

theorem rest_of_eq (same : as = bs) (h : Before (as ++ cs) (bs ++ ds)) : Before cs ds := by
  subst same
  exact ((of_append rfl h).resolve_left (irrefl as)).2

end Before

namespace Band

variable {band tiles points permuted upper lower : Band} {us vs us' vs' : List Int}
  {sizes : List Int}

/-- Member by member, the first value is at most the second, and equal to it if the member is
coincident. -/
def Ordered (band : Band) (us vs : List Int) : Prop :=
  ∀ (i : Nat) m u v, band.members[i]? = some m → us[i]? = some u → vs[i]? = some v →
    u ≤ v ∧ (m.coincident = true → u = v)

namespace Ordered

theorem le (ordered : band.Ordered us vs) (left : us.length = band.nMembers)
    (right : vs.length = band.nMembers) : List.Forall₂ (· ≤ ·) us vs := by
  refine List.forall₂_iff_get.mpr ⟨left.trans right.symm, fun i inLeft inRight => ?_⟩
  have within : i < band.nMembers := left ▸ inLeft
  exact (ordered i band.members[i] _ _ (List.getElem?_eq_getElem within)
    (List.getElem?_eq_getElem inLeft) (List.getElem?_eq_getElem inRight)).1

theorem permute {positions : List Nat} (ordered : band.Ordered us vs)
    (permutes : band.Permuted positions permuted)
    (left : ∀ i : Nat, us'[i]? = positions[i]?.bind (us[·]?))
    (right : ∀ i : Nat, vs'[i]? = positions[i]?.bind (vs[·]?)) : permuted.Ordered us' vs' := by
  intro i m u v member atLeft atRight
  rw [permutes.members] at member
  rw [left] at atLeft
  rw [right] at atRight
  cases position : positions[i]? with
  | none => simp [position] at member
  | some p =>
    simp only [position, Option.bind_some] at member atLeft atRight
    exact ordered p m u v member atLeft atRight

theorem fdiv (ordered : band.Ordered us vs) (tiled : band.Tiled sizes tiles points)
    (positive : ∀ size ∈ sizes, 0 < size) :
    tiles.Ordered (us.zipWith Int.fdiv sizes) (vs.zipWith Int.fdiv sizes) := by
  intro i m _ _ member atLeft atRight
  rw [tiled.tileMembers] at member
  obtain ⟨u, size, atU, atSize, rfl⟩ := List.getElem?_zipWith_eq_some.mp atLeft
  obtain ⟨v, _, atV, atSize', rfl⟩ := List.getElem?_zipWith_eq_some.mp atRight
  cases atSize.symm.trans atSize'
  obtain ⟨le, equal⟩ := ordered i m u v member atU atV
  have pos := positive size (List.mem_of_getElem? atSize)
  refine ⟨?_, fun coincident => by rw [equal coincident]⟩
  rw [Int.fdiv_eq_ediv_of_nonneg _ pos.le, Int.fdiv_eq_ediv_of_nonneg _ pos.le]
  exact Int.ediv_le_ediv pos le

/-- Within one tile the offsets are in the order of the values. -/
theorem fmod (ordered : band.Ordered us vs) (tiled : band.Tiled sizes tiles points)
    (same : us.zipWith Int.fdiv sizes = vs.zipWith Int.fdiv sizes) :
    points.Ordered (us.zipWith Int.fmod sizes) (vs.zipWith Int.fmod sizes) := by
  intro i m _ _ member atLeft atRight
  rw [tiled.pointMembers] at member
  obtain ⟨u, size, atU, atSize, rfl⟩ := List.getElem?_zipWith_eq_some.mp atLeft
  obtain ⟨v, _, atV, atSize', rfl⟩ := List.getElem?_zipWith_eq_some.mp atRight
  cases atSize.symm.trans atSize'
  obtain ⟨le, equal⟩ := ordered i m u v member atU atV
  refine ⟨?_, fun coincident => by rw [equal coincident]⟩
  have quotient : u.fdiv size = v.fdiv size := by
    have := congrArg (·[i]?) same
    simpa [List.getElem?_zipWith, atU, atV, atSize] using this
  have left := Int.mul_fdiv_add_fmod u size
  have right := Int.mul_fdiv_add_fmod v size
  rw [quotient] at left
  omega

theorem split {count : Nat} (ordered : band.Ordered us vs) (split : band.Split count upper lower) :
    upper.Ordered (us.take count) (vs.take count) ∧
      lower.Ordered (us.drop count) (vs.drop count) := by
  constructor
  · intro i m u v member atLeft atRight
    rw [split.upperMembers, List.getElem?_take] at member
    rw [List.getElem?_take] at atLeft atRight
    split at member <;> simp_all [ordered i m u v]
  · intro i m u v member atLeft atRight
    rw [split.lowerMembers, List.getElem?_drop] at member
    rw [List.getElem?_drop] at atLeft atRight
    exact ordered _ m u v member atLeft atRight

end Ordered

end Band

/-- Two instances may both come to what lies below the given nodes. -/
structure Company (domains : StmtMap Polyhedron) (above : List NodeKind) (x y : Iteration) :
    Prop where
  left : domains.contains x.stmt = true ∧ above.all (·.lets x.stmt) = true
  right : domains.contains y.stmt = true ∧ above.all (·.lets y.stmt) = true
  peers : ∀ domain, domains.get? x.stmt = some domain → y.stmt = x.stmt → x.Peers domain.nDim y

/-- The band orders two instances. If they are of one statement, equal entries tell its
iterators. -/
structure Legal (domains : StmtMap Polyhedron) (above : List NodeKind) (x y : Iteration)
    (band : Band) : Prop where
  arity : band.HasArity
  ordered : ∀ es fs, band.schedule.get? x.stmt = some es → band.schedule.get? y.stmt = some fs →
    band.Ordered (x.values es) (y.values fs)
  tells : ∀ domain es, domains.get? x.stmt = some domain → y.stmt = x.stmt →
    band.schedule.get? x.stmt = some es → ∀ e ∈ es, e.Tells domain.nDim x y
  settled : ∀ domain es, domains.get? x.stmt = some domain → y.stmt = x.stmt →
    band.schedule.get? x.stmt = some es →
    Settled domain.nDim x y (exprsAbove above x.stmt) es

/-- The entries so far are equal. If the instances are of one statement, they tell the iterators. -/
def EqualAbove (domains : StmtMap Polyhedron) (above : List NodeKind) (x y : Iteration) : Prop :=
  ∀ domain, domains.get? x.stmt = some domain → y.stmt = x.stmt →
    ∀ e ∈ exprsAbove above x.stmt, e.Tells domain.nDim x y ∧ x.value e = y.value e

section Steps

variable {domains : StmtMap Polyhedron} {above : List NodeKind} {x y : Iteration}
  {band tiles points permuted upper lower : Band}

theorem Company.append (company : Company domains above x y) {kind : NodeKind}
    (left : kind.lets x.stmt = true) (right : kind.lets y.stmt = true) :
    Company domains (above ++ [kind]) x y := by
  refine ⟨⟨company.left.1, ?_⟩, ⟨company.right.1, ?_⟩, company.peers⟩
  · rw [List.all_append, company.left.2, List.all_cons, left]
    rfl
  · rw [List.all_append, company.right.2, List.all_cons, right]
    rfl

theorem exprsAbove_band {stmt : Nat} {es : List Quasi} (found : band.schedule.get? stmt = some es) :
    exprsAbove (above ++ [.band band]) stmt = exprsAbove above stmt ++ es := by
  rw [exprsAbove_append, NodeKind.exprs, found, Option.getD_some]

theorem Legal.le (legal : Legal domains above x y band) {es fs : List Quasi}
    (foundX : band.schedule.get? x.stmt = some es) (foundY : band.schedule.get? y.stmt = some fs) :
    List.Forall₂ (· ≤ ·) (x.values es) (y.values fs) :=
  (legal.ordered es fs foundX foundY).le
    (by simpa using Band.hasArity_iff.mp legal.arity _ _ foundX)
    (by simpa using Band.hasArity_iff.mp legal.arity _ _ foundY)

theorem Legal.leTiles {sizes : List Int} (legal : Legal domains above x y band)
    (tiled : band.Tiled sizes tiles points) {es fs ts us : List Quasi}
    (foundX : band.schedule.get? x.stmt = some es) (foundY : band.schedule.get? y.stmt = some fs)
    (tilesX : tiles.schedule.get? x.stmt = some ts)
    (tilesY : tiles.schedule.get? y.stmt = some us) :
    List.Forall₂ (· ≤ ·) (x.values ts) (y.values us) := by
  obtain ⟨_, _, tilesX', -, tilingX⟩ := tiled.scheduled _ _ foundX
  obtain ⟨_, _, tilesY', -, tilingY⟩ := tiled.scheduled _ _ foundY
  cases tilesX.symm.trans tilesX'
  cases tilesY.symm.trans tilesY'
  have arity := (tiled.hasArity legal.arity).1
  refine Band.Ordered.le ?_ (by simpa using Band.hasArity_iff.mp arity _ _ tilesX)
    (by simpa using Band.hasArity_iff.mp arity _ _ tilesY)
  rw [tilingX.values_tiles, tilingY.values_tiles]
  exact (legal.ordered es fs foundX foundY).fdiv tiled fun size member => tilingX.pos member

theorem Legal.splitUpper {count : Nat} (legal : Legal domains above x y band)
    (split : band.Split count upper lower) {us vs : List Quasi}
    (upperX : upper.schedule.get? x.stmt = some us)
    (upperY : upper.schedule.get? y.stmt = some vs) :
    List.Forall₂ (· ≤ ·) (x.values us) (y.values vs) := by
  rw [split.upperExprs, Option.map_eq_some_iff] at upperX upperY
  obtain ⟨es, foundX, rfl⟩ := upperX
  obtain ⟨fs, foundY, rfl⟩ := upperY
  simpa [Iteration.values] using List.forall₂_take count (legal.le foundX foundY)

theorem Legal.permute {positions : List Nat} (legal : Legal domains above x y band)
    (permutes : band.Permuted positions permuted) : Legal domains above x y permuted := by
  refine ⟨permutes.hasArity legal.arity, fun es' fs' foundX foundY => ?_,
    fun domain es' found same foundX => ?_, fun domain es' found same foundX => ?_⟩
  · obtain ⟨es, ownX, eachX⟩ := permutes.exists_exprs foundX
    obtain ⟨fs, ownY, eachY⟩ := permutes.exists_exprs foundY
    exact (legal.ordered es fs ownX ownY).permute permutes (Band.Permuted.getElem?_values eachX)
      (Band.Permuted.getElem?_values eachY)
  · obtain ⟨es, own, each⟩ := permutes.exists_exprs foundX
    have length := Band.hasArity_iff.mp legal.arity _ _ own
    exact fun e member =>
      legal.tells domain es found same own e ((permutes.mem_iff length each).mp member)
  · obtain ⟨es, own, each⟩ := permutes.exists_exprs foundX
    have length := Band.hasArity_iff.mp legal.arity _ _ own
    exact (legal.settled domain es found same own).mono fun e member =>
      (permutes.mem_iff length each).mpr member

/-- Where the entries of the tiles are equal, the points are again in order. -/
theorem Legal.tile {sizes : List Int} (legal : Legal domains above x y band)
    (company : Company domains above x y) (tiled : band.Tiled sizes tiles points)
    (same : ∀ ts us, tiles.schedule.get? x.stmt = some ts → tiles.schedule.get? y.stmt = some us →
      x.values ts = y.values us) :
    Legal domains (above ++ [.band tiles]) x y points := by
  refine ⟨(tiled.hasArity legal.arity).2, fun ps qs foundX foundY => ?_,
    fun domain ps found one foundX => ?_, fun domain ps found one foundX => ?_⟩
  · obtain ⟨es, ts, ownX, tilesX, tilingX⟩ := tiled.exists_exprs foundX
    obtain ⟨fs, us, ownY, tilesY, tilingY⟩ := tiled.exists_exprs foundY
    rw [tilingX.values_points, tilingY.values_points]
    refine (legal.ordered es fs ownX ownY).fmod tiled ?_
    rw [← tilingX.values_tiles, ← tilingY.values_tiles, same ts us tilesX tilesY]
  · obtain ⟨es, ts, own, foundTiles, tiling⟩ := tiled.exists_exprs foundX
    have sameTiles := same ts ts foundTiles (one ▸ foundTiles)
    intro p member
    obtain ⟨i, here⟩ := List.mem_iff_getElem?.mp member
    have within : i < es.length := tiling.lengths.2.2 ▸ (List.getElem?_eq_some_iff.mp here).1
    obtain ⟨size, e, tile, _, -, atExprs, atTiles, here', floor, modulo⟩ := tiling.row within
    cases here.symm.trans here'
    exact (legal.tells domain es found one own e (List.mem_of_getElem? atExprs)).modulo floor modulo
      (List.map_inj_left.mp sameTiles tile (List.mem_of_getElem? atTiles))
  · obtain ⟨es, ts, own, foundTiles, tiling⟩ := tiled.exists_exprs foundX
    rw [exprsAbove_band foundTiles]
    exact (legal.settled domain es found one own).tile (company.peers domain found one) tiling
      (legal.tells domain es found one own) (same ts ts foundTiles (one ▸ foundTiles))

/-- Where the entries of the first members are equal, the rest is again in order. -/
theorem Legal.split {count : Nat} (legal : Legal domains above x y band)
    (split : band.Split count upper lower)
    (same : ∀ es fs, upper.schedule.get? x.stmt = some es → upper.schedule.get? y.stmt = some fs →
      x.values es = y.values fs) :
    Legal domains (above ++ [.band upper]) x y lower := by
  refine ⟨(split.hasArity legal.arity).2, fun es' fs' foundX foundY => ?_,
    fun domain es' found one foundX => ?_, fun domain es' found one foundX => ?_⟩
  · rw [split.lowerExprs, Option.map_eq_some_iff] at foundX foundY
    obtain ⟨es, ownX, rfl⟩ := foundX
    obtain ⟨fs, ownY, rfl⟩ := foundY
    simpa [Iteration.values] using ((legal.ordered es fs ownX ownY).split split).2
  · rw [split.lowerExprs, Option.map_eq_some_iff] at foundX
    obtain ⟨es, own, rfl⟩ := foundX
    exact fun e member => legal.tells domain es found one own e (List.mem_of_mem_drop member)
  · rw [split.lowerExprs, Option.map_eq_some_iff] at foundX
    obtain ⟨es, own, rfl⟩ := foundX
    have foundUpper : upper.schedule.get? x.stmt = some (es.take count) := by
      rw [split.upperExprs, own, Option.map_some]
    rw [exprsAbove_band foundUpper]
    refine (legal.settled domain es found one own).append (fun e member => ⟨?_, ?_⟩)
      fun e member => ?_
    · exact legal.tells domain es found one own e (List.mem_of_mem_take member)
    · exact List.map_inj_left.mp (same _ _ foundUpper (one ▸ foundUpper)) e member
    · rwa [← List.mem_append, List.take_append_drop]

end Steps

namespace Tree

variable {domains : StmtMap Polyhedron} {above : List NodeKind} {x y : Iteration}
  {as bs as' bs' : List Int} {id arity : Nat} {band : Band} {child : Fin arity → Tree} {t' : Tree}

/-- Making the first loop of a band a vector loop keeps the order, if it is coincident. -/
theorem Vectorized.before_first {width : Int} {own : Nat}
    (vectorized : Vectorized domains width own 0 above (node id (.band band) arity child) t')
    (company : Company domains above x y) (legal : Legal domains above x y band)
    (coincident : ∀ m, band.members[0]? = some m → m.coincident = true)
    (oldX : (node id (.band band) arity child).stamp x = some as)
    (oldY : (node id (.band band) arity child).stamp y = some bs) (before : Before as bs)
    (newX : t'.stamp x = some as') (newY : t'.stamp y = some bs') : Before as' bs' := by
  cases vectorized with
  | later split => exact absurd split.pos (Nat.lt_irrefl 0)
  | @first _ _ c t' head tiles points here heads tiled stripped =>
    obtain ⟨es, -, foundX, -, -⟩ := stamp_band_eq_some.mp oldX
    obtain ⟨fs, -, foundY, -, -⟩ := stamp_band_eq_some.mp oldY
    obtain ⟨q, es, rfl, headX, belowX⟩ := heads.exprs legal.arity foundX
    obtain ⟨r, fs, rfl, headY, -⟩ := heads.exprs legal.arity foundY
    rw [heads.stamp 0, stamp_only] at oldX oldY
    simp only [headX, headY, Option.bind_some, Option.map_eq_some_iff] at oldX oldY
    obtain ⟨rx, restX, rfl⟩ := oldX
    obtain ⟨ry, restY, rfl⟩ := oldY
    have same : x.value q = y.value r := by
      have pos : 0 < band.members.length := by
        have := Band.hasArity_iff.mp legal.arity _ _ foundX
        simp only [List.length_cons, Band.nMembers] at this
        omega
      exact (legal.ordered _ _ foundX foundY 0 band.members[0] _ _ (List.getElem?_eq_getElem pos)
        rfl rfl).2 (coincident _ (List.getElem?_eq_getElem pos))
    obtain ⟨choice, -, choices, stamps⟩ := stripped.stamp
    obtain ⟨ts, ps, tilesX, pointsX, tilingX⟩ := tiled.scheduled _ _ headX
    obtain ⟨us, qs, tilesY, pointsY, tilingY⟩ := tiled.scheduled _ _ headY
    simp only [stamp_only, tilesX, tilesY, stamps x ps pointsX, stamps y qs pointsY, restX, restY,
      Option.map_some, Option.bind_some, Option.some.injEq] at newX newY
    subst newX newY
    have sameTiles : x.values ts = y.values us := by
      rw [tilingX.values_tiles, tilingY.values_tiles]
      simp [Iteration.values, same]
    have sameChoice : choice x = choice y := by
      refine choices x y fun stmt guard separates => ?_
      obtain rfl := separates.alone x.stmt company.left.1 company.left.2
      have statement := separates.alone y.stmt company.right.1 company.right.2
      obtain ⟨domain, found⟩ := Option.isSome_iff_exists.mp company.left.1
      obtain rfl : q = r := by
        rw [statement, headX] at headY
        simpa using headY
      exact separates.isFull_eq tiled statement found (company.peers domain found statement) headX
        (legal.tells domain _ found statement foundX q (by simp)) same
        ((legal.settled domain _ found statement foundX).mono
        (by simpa using fun e h => .inr (belowX e h)))
    have rests : Before rx ry := before.rest_of_eq (by simp [Iteration.values, same])
    rw [sameTiles, sameChoice]
    exact ((rests.append_right _ _).append_left _).append_left _

theorem Vectorized.before {width : Int} {own member : Nat}
    (vectorized : Vectorized domains width own member above (node id (.band band) arity child) t')
    (company : Company domains above x y) (legal : Legal domains above x y band)
    (coincident : ∀ m, band.members[member]? = some m → m.coincident = true)
    (oldX : (node id (.band band) arity child).stamp x = some as)
    (oldY : (node id (.band band) arity child).stamp y = some bs) (before : Before as bs)
    (newX : t'.stamp x = some as') (newY : t'.stamp y = some bs') : Before as' bs' := by
  cases vectorized with
  | first here heads tiled stripped =>
    exact (Vectorized.first here heads tiled stripped).before_first company legal coincident oldX
      oldY before newX newY
  | @later _ _ _ _ _ upper lower _ t' split rest =>
    rw [← stamp_split own child split, stamp_only] at oldX oldY
    rw [stamp_only] at newX newY
    simp only [Option.bind_eq_some_iff, Option.map_eq_some_iff] at oldX oldY newX newY
    obtain ⟨us, upperX, rx, restX, rfl⟩ := oldX
    obtain ⟨vs, upperY, ry, restY, rfl⟩ := oldY
    obtain ⟨_, upperX', rx', restX', rfl⟩ := newX
    obtain ⟨_, upperY', ry', restY', rfl⟩ := newY
    cases upperX.symm.trans upperX'
    cases upperY.symm.trans upperY'
    refine .append_of_le (legal.splitUpper split upperX upperY) fun same => ?_
    have lowerLegal : Legal domains (above ++ [.band upper]) x y lower := by
      refine legal.split split fun es fs foundX foundY => ?_
      cases upperX.symm.trans foundX
      cases upperY.symm.trans foundY
      exact same
    refine rest.before_first (company.append rfl rfl) lowerLegal (fun m here => coincident m ?_)
      restX restY (before.rest_of_eq same) restX' restY'
    rw [← here, split.lowerMembers, List.getElem?_drop, Nat.add_zero]

/-- Reordering and tiling the loops of a band, and making one of them a vector loop, keeps the
order. -/
theorem Reshaped.before {vector : Bool} {t : Tree} (reshaped : Reshaped domains above vector t t')
    (company : Company domains above x y)
    (legal : ∀ id arity band child, t = node id (.band band) arity child →
      Legal domains above x y band)
    (oldX : t.stamp x = some as) (oldY : t.stamp y = some bs) (before : Before as bs)
    (newX : t'.stamp x = some as') (newY : t'.stamp y = some bs') : Before as' bs' := by
  induction reshaped generalizing as bs as' bs' with
  | same =>
    cases oldX.symm.trans newX
    cases oldY.symm.trans newY
    exact before
  | @permute above vector id arity band permuted positions child t' permutes rest ih =>
    have own := legal _ _ _ _ rfl
    obtain ⟨es, rx, foundX, restX, rfl⟩ := stamp_band_eq_some.mp oldX
    obtain ⟨fs, ry, foundY, restY, rfl⟩ := stamp_band_eq_some.mp oldY
    obtain ⟨es', foundX', eachX⟩ := permutes.scheduled x.stmt es foundX
    obtain ⟨fs', foundY', eachY⟩ := permutes.scheduled y.stmt fs foundY
    refine ih company ?_ (stamp_band_eq_some.mpr ⟨es', rx, foundX', restX, rfl⟩)
      (stamp_band_eq_some.mpr ⟨fs', ry, foundY', restY, rfl⟩) ?_ newX newY
    · rintro _ _ _ _ ⟨⟩
      exact own.permute permutes
    · refine .append_of_le ((own.permute permutes).le foundX' foundY') fun same => ?_
      exact before.rest_of_eq (permutes.values_eq own.arity foundX foundY eachX eachY same)
  | @tile above vector id position arity sizes band tiles points child t' tiled rest ih =>
    have own := legal _ _ _ _ rfl
    obtain ⟨es, rx, foundX, restX, rfl⟩ := stamp_band_eq_some.mp oldX
    obtain ⟨fs, ry, foundY, restY, rfl⟩ := stamp_band_eq_some.mp oldY
    obtain ⟨ts, ps, tilesX, pointsX, tilingX⟩ := tiled.scheduled x.stmt es foundX
    obtain ⟨us, qs, tilesY, pointsY, tilingY⟩ := tiled.scheduled y.stmt fs foundY
    simp only [stamp_only, tilesX, tilesY, Option.bind_some, Option.map_eq_some_iff] at newX newY
    obtain ⟨rx', restX', rfl⟩ := newX
    obtain ⟨ry', restY', rfl⟩ := newY
    refine .append_of_le (own.leTiles tiled foundX foundY tilesX tilesY) fun sameTiles => ?_
    have pointsLegal : Legal domains (above ++ [.band tiles]) x y points := by
      refine own.tile company tiled fun ts' us' foundTs foundUs => ?_
      cases tilesX.symm.trans foundTs
      cases tilesY.symm.trans foundUs
      exact sameTiles
    refine ih (company.append rfl rfl) ?_ (stamp_band_eq_some.mpr ⟨ps, rx, pointsX, restX, rfl⟩)
      (stamp_band_eq_some.mpr ⟨qs, ry, pointsY, restY, rfl⟩) ?_ restX' restY'
    · rintro _ _ _ _ ⟨⟩
      exact pointsLegal
    · refine .append_of_le (pointsLegal.le pointsX pointsY) fun samePoints => ?_
      exact before.rest_of_eq (tilingX.values_eq tilingY sameTiles samePoints)
  | vectorize coincident vectorized =>
    exact vectorized.before company (legal _ _ _ _ rfl) coincident oldX oldY before newX newY

end Tree

def Band.isAffine (band : Band) : Bool :=
  band.schedule.entries.all fun entry => entry.2.all (·.isAffine)

def Arena.isAffine (a : Arena) : Bool := a.bands.all fun id => (a.band? id).all (·.isAffine)

/-- Where two ways come to a band by the same nodes and with equal entries, the loops of the band
may be exchanged and there is no band below it, no entry of the first instance is greater than that
of the second, and the entries of coincident members are equal. -/
def Arena.Respects (a : Arena) : List Visit → List Visit → Prop
  | v :: vs, w :: ws =>
    (v.id = w.id → ∀ band, a.band? v.id = some band → band.members.all (·.permutable) = true →
      a.hasBandBelow v.id = false → band.Ordered v.entries w.entries) ∧
    (v = w → a.Respects vs ws)
  | _, _ => True

theorem Band.isAffine_iff {band : Band} : band.isAffine = true ↔
    ∀ stmt exprs, band.schedule.get? stmt = some exprs → ∀ e ∈ exprs, e.isAffine = true := by
  simp only [isAffine, List.all_eq_true, StmtMap.get?_eq_some_iff]
  exact ⟨fun h stmt exprs member => h _ member, fun h entry member => h entry.1 entry.2 member⟩

/-- Affine expressions of one statement tell what they contain. -/
theorem Company.tells {domains : StmtMap Polyhedron} {above : List NodeKind} {x y : Iteration}
    (company : Company domains above x y) {band : Band} (fits : band.Fits domains)
    (affine : band.isAffine = true) {domain : Polyhedron} {es : List Quasi}
    (found : domains.get? x.stmt = some domain) (one : y.stmt = x.stmt)
    (own : band.schedule.get? x.stmt = some es) : ∀ e ∈ es, e.Tells domain.nDim x y := by
  intro e member
  obtain ⟨-, _, found', dims⟩ := fits _ _ own
  cases found.symm.trans found'
  exact Quasi.tells_of_affine (company.peers domain found one)
    (Band.isAffine_iff.mp affine _ _ own e member) (dims e member)

namespace Tree

variable {domains : StmtMap Polyhedron} {above : List NodeKind} {x y : Iteration}
  {as bs as' bs' : List Int} {t t' : Tree}

theorem lets_of_onward {arity : Nat} {child : Fin arity → Tree} {kind : NodeKind}
    {r : List Int × Option (Fin arity)} (h : onward x child kind = some r) :
    kind.lets x.stmt = true := by
  cases kind with
  | filter f =>
    simp only [onward] at h
    split at h
    · rename_i admitted
      exact Filter.mayPass_of_admits admitted
    · cases h
  | _ => rfl

/-- Equal entries of a node add to what the entries so far tell. -/
theorem equalAbove_append {arity : Nat} {child : Fin arity → Tree} {kind : NodeKind}
    {entries : List Int} {next : Option (Fin arity)} (equal : EqualAbove domains above x y)
    (company : Company domains above x y)
    (bands : ∀ band, kind = .band band → band.Fits domains ∧ band.isAffine = true)
    (onX : onward x child kind = some (entries, next))
    (onY : onward y child kind = some (entries, next)) :
    EqualAbove domains (above ++ [kind]) x y := by
  intro domain found one e member
  rw [exprsAbove_append, List.mem_append] at member
  rcases member with member | member
  · exact equal domain found one e member
  cases kind with
  | band band =>
    cases own : band.schedule.get? x.stmt with
    | none => simp [NodeKind.exprs, own] at member
    | some es =>
      rw [NodeKind.exprs, own, Option.getD_some] at member
      have same := (onward_band onX own).symm.trans (onward_band onY (one ▸ own))
      obtain ⟨fits, affine⟩ := bands band rfl
      exact ⟨company.tells fits affine found one own e member, List.map_inj_left.mp same e member⟩
  | _ => simp [NodeKind.exprs] at member

/-- A band that the optimizer may reshape orders the instances whose ways respect it. -/
theorem legal_of_respects {a : Arena} {id arity : Nat} {band : Band} {child : Fin arity → Tree}
    {visitsX visitsY : List Visit} (holds : a.Holds (node id (.band band) arity child))
    (fits : band.Fits domains) (affine : band.isAffine = true)
    (permutable : band.isPermutable = true)
    (innermost : a.hasBandBelow id = false) (company : Company domains above x y)
    (equal : EqualAbove domains above x y)
    (wayX : (node id (.band band) arity child).way x = some visitsX)
    (wayY : (node id (.band band) arity child).way y = some visitsY)
    (respects : a.Respects visitsX visitsY) : Legal domains above x y band := by
  refine ⟨fits.hasArity, fun es fs foundX foundY => ?_, fun domain es => company.tells fits affine,
    fun domain es found one own => Settled.nil.append (equal domain found one) (by simp)⟩
  obtain ⟨laterX, rfl⟩ := entries_of_way wayX foundX
  obtain ⟨laterY, rfl⟩ := entries_of_way wayY foundY
  refine respects.1 rfl band ?_ ?_ innermost
  · exact holds.band?_eq
  · simp only [Band.isPermutable, Bool.and_eq_true] at permutable
    exact permutable.2

/-- A rewritten tree keeps the order of instances that its innermost bands order. -/
theorem Rewritten.before {a : Arena} {decisions : List Decision} {visitsX visitsY : List Visit}
    (rewritten : Rewritten domains above t t' decisions) (holds : a.Holds t)
    (bands : t.EveryBand fun band => band.Fits domains ∧ band.isAffine = true)
    (company : Company domains above x y) (equal : EqualAbove domains above x y)
    (wayX : t.way x = some visitsX) (wayY : t.way y = some visitsY)
    (respects : a.Respects visitsX visitsY)
    (oldX : t.stamp x = some as) (oldY : t.stamp y = some bs) (before : Before as bs)
    (newX : t'.stamp x = some as') (newY : t'.stamp y = some bs') : Before as' bs' := by
  induction rewritten generalizing visitsX visitsY as bs as' bs' with
  | @keep above id arity kind child child' below own children kept ih =>
    simp only [stamp_node, Option.bind_eq_some_iff, Option.map_eq_some_iff] at oldX oldY newX newY
    rw [onward_congr kind fun i => (children i).admits] at newX newY
    obtain ⟨⟨ex, next⟩, onX, rx, restX, rfl⟩ := oldX
    obtain ⟨⟨ey, next'⟩, onY, ry, restY, rfl⟩ := oldY
    obtain ⟨_, onX', rx', restX', rfl⟩ := newX
    obtain ⟨_, onY', ry', restY', rfl⟩ := newY
    cases onX.symm.trans onX'
    cases onY.symm.trans onY'
    have arities : ∀ band, kind = .band band → band.HasArity := fun band same =>
      (bands.1 band same).1.hasArity
    have length : ex.length = ey.length := by
      rw [onward_length arities onX, onward_length arities onY]
    rcases Before.of_append length before with here | ⟨sameEntries, rests⟩
    · exact here.append_right _ _
    obtain rfl : ex = ey := sameEntries
    obtain rfl : next = next' := onward_next onX onY
    refine .append_left ex ?_
    cases next with
    | none =>
      cases restX
      exact rests.elim
    | some i =>
      obtain ⟨_, laterX, rfl, ⟨onX'', -⟩ | ⟨_, onX'', belowX⟩⟩ := way_eq_some wayX
      · simp [onX] at onX''
      obtain ⟨_, laterY, rfl, ⟨onY'', -⟩ | ⟨_, onY'', belowY⟩⟩ := way_eq_some wayY
      · simp [onY] at onY''
      cases onX.symm.trans onX''
      cases onY.symm.trans onY''
      exact ih i (holds.child i) (bands.2 i)
        (company.append (lets_of_onward onX) (lets_of_onward onY))
        (equalAbove_append equal company bands.1 onX onY) belowX belowY (respects.2 rfl) restX restY
        rests restX' restY'
  | @reshape above id arity vector band child t' decision permutable bandless reshaped here flag =>
    refine reshaped.before company ?_ oldX oldY before newX newY
    rintro _ _ _ _ ⟨⟩
    obtain ⟨fits, affine⟩ := bands.1 band rfl
    exact legal_of_respects holds fits affine permutable (holds.hasBandBelow.mpr bandless) company
      equal wayX wayY respects

end Tree

def Arena.HasInstance (a : Arena) (x : Iteration) : Prop :=
  ∃ domain, a.domains?.bind (·.get? x.stmt) = some domain ∧ domain.Mem x.point x.params

namespace Scop

variable {scop : Scop} {config : Config} {target : Option Target} {result : Optimized}
  {domains : StmtMap Polyhedron} {x y : Iteration}

theorem Sound.everyBand_isAffine (sound : scop.Sound domains)
    (affine : scop.schedule.isAffine = true) :
    scop.schedule.tree.EveryBand fun band => band.isAffine = true := by
  refine sound.holds.everyBand fun id member band found => ?_
  have listed : id ∈ scop.schedule.bands :=
    (Arena.mem_bands sound.holds sound.top.symm).mpr ⟨member, by simp [found]⟩
  simpa [found] using List.all_eq_true.mp affine id listed

theorem Sound.company (sound : scop.Sound domains) (memX : scop.schedule.HasInstance x)
    (memY : scop.schedule.HasInstance y) (params : x.params = y.params) :
    Company domains [] x y := by
  obtain ⟨domainX, atX, inX⟩ := memX
  obtain ⟨domainY, atY, inY⟩ := memY
  rw [sound.domains?, Option.bind_some] at atX atY
  refine ⟨⟨by simp [StmtMap.contains, atX], rfl⟩, ⟨by simp [StmtMap.contains, atY], rfl⟩,
    fun domain found one => ?_⟩
  cases found.symm.trans atX
  rw [one, atX, Option.some.injEq] at atY
  subst atY
  exact ⟨inX.1, inY.1, params⟩

/-- Legality: of two instances that the innermost bands with exchangeable loops keep in order, the
one that came first still comes first in the optimized schedule, unless a word overflows. -/
theorem optimize_keeps_order (h : scop.optimize config target = .ok (.ok result))
    (affine : scop.schedule.isAffine = true) (memX : scop.schedule.HasInstance x)
    (memY : scop.schedule.HasInstance y) (params : x.params = y.params)
    {visitsX visitsY : List Visit} {as bs : List Int}
    (wayX : (scop.schedule.visits x.stmt x.point x.params).run = .ok (.ok visitsX))
    (wayY : (scop.schedule.visits y.stmt y.point y.params).run = .ok (.ok visitsY))
    (respects : scop.schedule.Respects visitsX visitsY)
    (oldX : (scop.schedule.timestamp x.stmt x.point x.params).run = .ok (.ok as))
    (oldY : (scop.schedule.timestamp y.stmt y.point y.params).run = .ok (.ok bs))
    (ordered : precedes as bs = true) :
    ∃ as' bs', (result.schedule.timestamp x.stmt x.point x.params).Yields (.ok as') ∧
      (result.schedule.timestamp y.stmt y.point y.params).Yields (.ok bs') ∧
      precedes as' bs' = true := by
  obtain ⟨as', stampX, newX⟩ := yields_optimize h oldX
  obtain ⟨bs', stampY, newY⟩ := yields_optimize h oldY
  refine ⟨as', bs', newX, newY, ?_⟩
  have foundX := (scop.schedule.timestamp_agrees x).eq_some oldX
  have foundY := (scop.schedule.timestamp_agrees y).eq_some oldY
  obtain ⟨domains, sound, same | ⟨t', copy, rewritten, alike, roots⟩⟩ := optimize_rewrites h
  · rw [same] at stampX stampY
    cases stampX.symm.trans foundX
    cases stampY.symm.trans foundY
    exact ordered
  · have treeX := Arena.stamp_eq_some foundX
    have treeY := Arena.stamp_eq_some foundY
    have stampX' := Arena.stamp_eq_some stampX
    have stampY' := Arena.stamp_eq_some stampY
    rw [roots.tree_eq, ← alike.stamp] at stampX' stampY'
    have apart : Apart as bs := by
      refine (Tree.apart_or_same (sound.bands.imp fun band fits => fits.hasArity) treeX
        treeY).resolve_right ?_
      rintro ⟨rfl, -⟩
      simp [precedes_irrefl] at ordered
    exact (rewritten.before sound.holds (sound.bands.and (sound.everyBand_isAffine affine))
      (sound.company memX memY params) (by simp [EqualAbove, exprsAbove])
      (Arena.way_eq_some ((scop.schedule.visits_agrees x).eq_some wayX))
      (Arena.way_eq_some ((scop.schedule.visits_agrees y).eq_some wayY)) respects treeX treeY
      (.of_precedes apart ordered) stampX' stampY').precedes

/-- The grid in one band whose inner loop may run in any order. -/
def rows : Scop := .ofGrid fun domains => .ofBand domains [⟨true, false⟩, ⟨true, true⟩]

theorem rows_keeps_order : ∃ result as bs,
    rows.optimize .standard none = .ok (.ok result) ∧ result.profitable = true ∧
    (result.schedule.timestamp 0 [0, 3] []).run = .ok (.ok as) ∧
    (result.schedule.timestamp 0 [1, 3] []).run = .ok (.ok bs) ∧ precedes as bs = true := by
  obtain ⟨result, h, runs⟩ : ∃ result, rows.optimize .standard none = .ok (.ok result) ∧
      decide (result.profitable = true ∧
        (result.schedule.timestamp 0 [0, 3] []).run = .ok (.ok [0, 0, 0, 0, 0, 3]) ∧
        (result.schedule.timestamp 0 [1, 3] []).run = .ok (.ok [0, 0, 1, 0, 0, 3])) = true :=
    exists_ok_of_any (by decide +kernel)
  obtain ⟨profitable, newX, newY⟩ := of_decide_eq_true runs
  have wayX : (rows.schedule.visits 0 [0, 3] []).run =
      .ok (.ok [⟨0, []⟩, ⟨1, [0, 3]⟩, ⟨2, []⟩]) := by decide +kernel
  have wayY : (rows.schedule.visits 0 [1, 3] []).run =
      .ok (.ok [⟨0, []⟩, ⟨1, [1, 3]⟩, ⟨2, []⟩]) := by decide +kernel
  have oldX : (rows.schedule.timestamp 0 [0, 3] []).run = .ok (.ok [0, 3]) := by decide +kernel
  have oldY : (rows.schedule.timestamp 0 [1, 3] []).run = .ok (.ok [1, 3]) := by decide +kernel
  have respects : rows.schedule.Respects [⟨0, []⟩, ⟨1, [0, 3]⟩, ⟨2, []⟩]
      [⟨0, []⟩, ⟨1, [1, 3]⟩, ⟨2, []⟩] := by
    refine ⟨fun _ band found => ?_, fun _ => ⟨fun _ band found _ _ => ?_, by simp⟩⟩ <;> cases found
    rintro (_ | _ | i) m u v ⟨⟩ ⟨⟩ ⟨⟩ <;> decide
  obtain ⟨as, bs, yieldsX, yieldsY, ordered⟩ := optimize_keeps_order (x := ⟨0, [0, 3], []⟩)
    (y := ⟨0, [1, 3], []⟩) h (by decide +kernel)
    ⟨_, rfl, by decide⟩ ⟨_, rfl, by decide⟩ rfl wayX wayY respects oldX oldY (by decide)
  cases yieldsX.eq_of_run newX
  cases yieldsY.eq_of_run newY
  exact ⟨result, _, _, h, profitable, newX, newY, ordered⟩

end Scop

end LoopNest
