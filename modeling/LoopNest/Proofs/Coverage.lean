import LoopNest.Proofs.ExecutionOrder
import LoopNest.Proofs.Optimized
import LoopNest.Proofs.ProperWays
import LoopNest.Proofs.Stamps

/-! Whatever becomes of a band, the statements that it schedules stay the same, and the filters for
full and partial tiles let every instance through one of their branches. So an instance has a time
stamp after the optimization exactly if it had one before, and the same instances run. -/

namespace LoopNest

namespace Tree

variable {x : Iteration} {domains : StmtMap Polyhedron} {above : List NodeKind}

theorem isSome_stamp_band {id arity : Nat} {band : Band} {child : Fin arity → Tree} :
    ((node id (.band band) arity child).stamp x).isSome =
      ((band.schedule.get? x.stmt).isSome && (after x child (first arity)).isSome) := by
  rw [stamp_band]
  cases band.schedule.get? x.stmt <;> simp

theorem Vectorized.isSome_stamp {width : Int} {own member : Nat} {t t' : Tree}
    (vectorized : Vectorized domains width own member above t t') :
    (t'.stamp x).isSome = (t.stamp x).isSome := by
  induction vectorized with
  | @first above t c t' head tiles points here heads tiled stripped =>
    obtain ⟨choice, -, -, stamps⟩ := stripped.stamp
    rw [heads.stamp 0, isSome_stamp_band, isSome_stamp_band, tiled.isSome.1]
    cases found : head.schedule.get? x.stmt with
    | none => simp
    | some es =>
      obtain ⟨ts, ps, -, foundPoints, -⟩ := tiled.scheduled x.stmt es found
      simp [stamps x ps foundPoints]
  | @later member id arity above band upper lower child t' split rest ih =>
    rw [← stamp_split own child split, isSome_stamp_band, isSome_stamp_band]
    simp [ih]

theorem Reshaped.isSome_stamp {vector : Bool} {t t' : Tree}
    (reshaped : Reshaped domains above vector t t') :
    (t'.stamp x).isSome = (t.stamp x).isSome := by
  induction reshaped with
  | same => rfl
  | permute permutes rest ih => rw [ih, isSome_stamp_band, isSome_stamp_band, permutes.isSome]
  | tile tiled rest ih =>
    rw [isSome_stamp_band, first_one, after_some, ih, isSome_stamp_band, isSome_stamp_band,
      tiled.isSome.1, tiled.isSome.2, ← Bool.and_assoc, Bool.and_self]
  | vectorize coincident vectorized => exact vectorized.isSome_stamp

/-- A rewritten tree schedules the same instances. -/
theorem Rewritten.isSome_stamp {t t' : Tree} {decisions : List Decision}
    (rewritten : Rewritten domains above t t' decisions) :
    (t'.stamp x).isSome = (t.stamp x).isSome := by
  induction rewritten with
  | @keep above id arity kind child child' below own children kept ih =>
    rw [stamp_node, stamp_node, onward_congr kind fun i => (children i).admits]
    cases onward x child kind with
    | none => rfl
    | some r =>
      obtain ⟨entries, next?⟩ := r
      cases next? with
      | none => rfl
      | some i => simpa [after] using ih i
  | reshape permutable bandless reshaped here flag => exact reshaped.isSome_stamp

end Tree

namespace Eval

variable {α β γ δ : Type} {R : α → β → Prop} {S : γ → δ → Prop}

/-- If neither of two evaluations faults, both fail or both have answers, and these are related. -/
def Matches (R : α → β → Prop) (e : Eval α) (f : Eval β) : Prop :=
  ∀ r s, e.run = .ok r → f.run = .ok s →
    match r, s with
    | .ok a, .ok b => R a b
    | .error _, .error _ => True
    | _, _ => False

theorem matches_pure {a : α} {b : β} (related : R a b) : Matches R (pure a) (pure b) := by
  rintro _ _ ⟨⟩ ⟨⟩
  exact related

theorem matches_self (e : Eval α) : Matches (· = ·) e e := by
  intro r s first second
  obtain rfl : r = s := by simpa [first] using second
  cases r <;> trivial

theorem matches_bind {e : Eval α} {f : Eval β} {g : α → Eval γ} {h : β → Eval δ}
    (first : Matches R e f) (second : ∀ a b, R a b → Matches S (g a) (h b)) :
    Matches S (e >>= g) (f >>= h) := by
  intro r s ranLeft ranRight
  rcases run_bind_ok ranLeft with ⟨error, left, rfl⟩ | ⟨a, left, restLeft⟩ <;>
    rcases run_bind_ok ranRight with ⟨error', right, rfl⟩ | ⟨b, right, restRight⟩
  · trivial
  · exact (first _ _ left right).elim
  · exact (first _ _ left right).elim
  · exact second a b (first _ _ left right) r s restLeft restRight

theorem matches_mapM {ι : Type} {f : ι → Eval α} {g : ι → Eval β} {items : List ι}
    (each : ∀ item, Matches R (f item) (g item)) :
    Matches (List.Forall₂ R) (items.mapM f) (items.mapM g) := by
  induction items with
  | nil => exact matches_pure .nil
  | cons item rest ih =>
    rw [List.mapM_cons, List.mapM_cons]
    refine matches_bind (each item) fun a b head => ?_
    exact matches_bind ih fun as bs tail => matches_pure (.cons head tail)

theorem Agrees.matches {e : Eval α} {f : Eval β} {x : Option α} {y : Option β} (left : e.Agrees x)
    (right : f.Agrees y) (same : y.isSome = x.isSome) : Matches (fun _ _ => True) e f := by
  rintro (error | a) (error' | b) ranLeft ranRight
  · trivial
  · simp [left.eq_none ranLeft, right.eq_some ranRight] at same
  · simp [left.eq_some ranLeft, right.eq_none ranRight] at same
  · trivial

end Eval

/-- Schedules with the same domains that give time stamps to the same instances run the same
instances. -/
theorem Arena.executionOrder_matches {a b : Arena} (domains : a.domains? = b.domains?)
    (stamps : ∀ stmt point params, Eval.Matches (fun _ _ => True)
      (a.timestamp stmt point params) (b.timestamp stmt point params)) (params : List Int) :
    Eval.Matches (fun as bs => (as.map Instance.unstamped).Perm (bs.map Instance.unstamped))
      (a.executionOrder params) (b.executionOrder params) := by
  rw [executionOrder, executionOrder, ← domains]
  cases a.domains? with
  | none => exact Eval.matches_pure .rfl
  | some domains =>
    have parts : ∀ stmt domain, Eval.Matches
        (List.Forall₂ fun i j => i.unstamped = j.unstamped)
        (a.instancesOf params stmt domain) (b.instancesOf params stmt domain) := by
      intro stmt domain
      refine Eval.matches_bind (Eval.matches_self _) ?_
      rintro points _ rfl
      exact Eval.matches_mapM fun point =>
        Eval.matches_bind (stamps stmt point params) fun _ _ _ => Eval.matches_pure rfl
    refine Eval.matches_bind (Eval.matches_mapM fun entry => parts entry.1 entry.2)
      fun as bs related => Eval.matches_pure ?_
    have flat : as.flatten.map Instance.unstamped = bs.flatten.map Instance.unstamped := by
      rw [← List.forall₂_eq_eq_eq, List.forall₂_map_left_iff, List.forall₂_map_right_iff]
      exact List.rel_flatten related
    have left := (List.mergeSort_perm as.flatten Instance.atMost).map Instance.unstamped
    have right := (List.mergeSort_perm bs.flatten Instance.atMost).map Instance.unstamped
    exact (left.trans (.of_eq flat)).trans right.symm

namespace Scop

variable {scop : Scop} {config : Config} {target : Option Target} {result : Optimized}

theorem optimize_domains? (h : scop.optimize config target = .ok (.ok result)) :
    result.schedule.domains? = scop.schedule.domains? := by
  obtain ⟨domains, sound, same | ⟨t', copy, rewritten, alike, roots⟩⟩ := optimize_rewrites h
  · rw [same]
  · rw [sound.domains?_rewritten rewritten alike roots, sound.domains?]

theorem isSome_stamp_optimize (h : scop.optimize config target = .ok (.ok result)) (x : Iteration) :
    (result.schedule.stamp x).isSome = (scop.schedule.stamp x).isSome := by
  obtain ⟨domains, sound, same | ⟨t', copy, rewritten, alike, roots⟩⟩ := optimize_rewrites h
  · rw [same]
  · rw [sound.stamp_rewritten rewritten alike roots, sound.stamp_eq]
    cases domains.get? x.stmt with
    | none => rfl
    | some domain =>
      simp only [Option.bind_some]
      split
      · rfl
      · exact rewritten.isSome_stamp

theorem proper_optimize (h : scop.optimize config target = .ok (.ok result)) {x : Iteration}
    (proper : scop.schedule.tree.Proper x) : result.schedule.tree.Proper x := by
  obtain ⟨domains, sound, same | ⟨t', copy, rewritten, alike, roots⟩⟩ := optimize_rewrites h
  · rwa [same]
  · rw [roots.tree_eq]
    exact alike.proper (rewritten.proper proper)

/-- An instance that had a time stamp has one after the optimization, unless a word overflows. -/
theorem yields_optimize (h : scop.optimize config target = .ok (.ok result))
    {x : Iteration} {as : List Int}
    (old : (scop.schedule.timestamp x.stmt x.point x.params).run = .ok (.ok as)) :
    ∃ as', result.schedule.stamp x = some as' ∧
      (result.schedule.timestamp x.stmt x.point x.params).Yields (.ok as') := by
  have found := (scop.schedule.timestamp_agrees x).eq_some old
  have kept := isSome_stamp_optimize h x
  rw [found, Option.isSome_some] at kept
  obtain ⟨as', stamp⟩ := Option.isSome_iff_exists.mp kept
  obtain ⟨visits, walk⟩ := Arena.exists_visits old
  have only := Arena.onlyOverflows_visits (optimize_domains? h) (proper_optimize h) walk
  have agrees := result.schedule.timestamp_agrees x
  rw [stamp] at agrees
  exact ⟨as', stamp, agrees.yields (Arena.onlyOverflows_timestamp only)⟩

/-- No instance is lost or invented: the domains stay, an instance has a time stamp after the
optimization exactly if it had one before, and the same instances run. -/
theorem optimize_keeps_instances (h : scop.optimize config target = .ok (.ok result)) :
    result.schedule.domains? = scop.schedule.domains? ∧
    (∀ stmt point params, Eval.Matches (fun _ _ => True)
      (scop.schedule.timestamp stmt point params) (result.schedule.timestamp stmt point params)) ∧
    ∀ params, Eval.Matches
      (fun before after => (before.map Instance.unstamped).Perm (after.map Instance.unstamped))
      (scop.schedule.executionOrder params) (result.schedule.executionOrder params) := by
  have stamps : ∀ stmt point params, Eval.Matches (fun _ _ => True)
      (scop.schedule.timestamp stmt point params)
      (result.schedule.timestamp stmt point params) := fun stmt point params =>
    (scop.schedule.timestamp_agrees ⟨stmt, point, params⟩).matches
      (result.schedule.timestamp_agrees ⟨stmt, point, params⟩) (isSome_stamp_optimize h _)
  exact ⟨optimize_domains? h, stamps,
    Arena.executionOrder_matches (optimize_domains? h).symm stamps⟩

theorem grid_keeps_instances : ∃ result,
    grid.optimize .standard none = .ok (.ok result) ∧ result.profitable = true ∧
    result.schedule.domains? = grid.schedule.domains? ∧
    Eval.Matches (fun _ _ => True)
      (grid.schedule.timestamp 0 [5, 6] []) (result.schedule.timestamp 0 [5, 6] []) ∧
    Eval.Matches
      (fun before after => (before.map Instance.unstamped).Perm (after.map Instance.unstamped))
      (grid.schedule.executionOrder []) (result.schedule.executionOrder []) := by
  obtain ⟨result, h, profitable⟩ :
      ∃ result, grid.optimize .standard none = .ok (.ok result) ∧ result.profitable = true :=
    exists_ok_of_any (by decide +kernel)
  obtain ⟨domains, stamps, orders⟩ := optimize_keeps_instances h
  exact ⟨result, h, profitable, domains, stamps 0 [5, 6] [], orders []⟩

end Scop

end LoopNest
