import LoopNest.Proofs.Enumeration

/-! The instances that a schedule puts in order are those of all points of its domains. Statements
are different or points are, so no two instances are equal, and sorting brings them into a strict
order. -/

namespace LoopNest

theorem precedes_trichotomy (as bs : List Int) :
    precedes as bs = true ∨ as = bs ∨ precedes bs as = true := by
  by_cases first : precedes as bs = true
  · exact .inl first
  · by_cases second : precedes bs as = true
    · exact .inr (.inr second)
    · exact .inr (.inl (eq_of_not_precedes (by simpa using first) (by simpa using second)))

namespace Instance

def unstamped (i : Instance) : Nat × List Int := (i.stmt, i.point)

def before (a b : Instance) : Bool :=
  precedes a.timestamp b.timestamp ||
    a.timestamp = b.timestamp &&
      (a.stmt < b.stmt || a.stmt = b.stmt && precedes a.point b.point)

variable {a b c : Instance}

theorem before_trans (first : a.before b = true) (second : b.before c = true) :
    a.before c = true := by
  simp only [before, Bool.or_eq_true, Bool.and_eq_true, decide_eq_true_eq] at first second ⊢
  rcases first with first | ⟨same, first⟩
  · rcases second with second | ⟨same', -⟩
    · exact .inl (precedes_trans first second)
    · exact .inl (same' ▸ first)
  · rcases second with second | ⟨same', second⟩
    · exact .inl (same ▸ second)
    · refine .inr ⟨same.trans same', ?_⟩
      rcases first with first | ⟨stmts, first⟩ <;> rcases second with second | ⟨stmts', second⟩
      · exact .inl (first.trans second)
      · exact .inl (stmts' ▸ first)
      · exact .inl (stmts ▸ second)
      · exact .inr ⟨stmts.trans stmts', precedes_trans first second⟩

theorem before_trichotomy (a b : Instance) :
    a.before b = true ∨ a = b ∨ b.before a = true := by
  simp only [before, Bool.or_eq_true, Bool.and_eq_true, decide_eq_true_eq]
  rcases precedes_trichotomy a.timestamp b.timestamp with earlier | stamps | later
  · exact .inl (.inl earlier)
  · rcases Nat.lt_trichotomy a.stmt b.stmt with earlier | stmts | later
    · exact .inl (.inr ⟨stamps, .inl earlier⟩)
    · rcases precedes_trichotomy a.point b.point with earlier | points | later
      · exact .inl (.inr ⟨stamps, .inr ⟨stmts, earlier⟩⟩)
      · cases a
        cases b
        simp_all
      · exact .inr (.inr (.inr ⟨stamps.symm, .inr ⟨stmts.symm, later⟩⟩))
    · exact .inr (.inr (.inr ⟨stamps.symm, .inl later⟩))
  · exact .inr (.inr (.inl later))

theorem atMost_iff : a.atMost b = true ↔ a = b ∨ a.before b = true := by
  simp only [atMost, before, Bool.or_eq_true, Bool.and_eq_true, decide_eq_true_eq,
    Bool.not_eq_true']
  constructor
  · rintro (earlier | ⟨stamps, earlier | ⟨stmts, points⟩⟩)
    · exact .inr (.inl earlier)
    · exact .inr (.inr ⟨stamps, .inl earlier⟩)
    · rcases precedes_trichotomy a.point b.point with earlier | same | later
      · exact .inr (.inr ⟨stamps, .inr ⟨stmts, earlier⟩⟩)
      · cases a
        cases b
        simp_all
      · rw [later] at points
        cases points
  · rintro (rfl | earlier | ⟨stamps, earlier | ⟨stmts, earlier⟩⟩)
    · exact .inr ⟨rfl, .inr ⟨rfl, precedes_irrefl _⟩⟩
    · exact .inl earlier
    · exact .inr ⟨stamps, .inl earlier⟩
    · refine .inr ⟨stamps, .inr ⟨stmts, ?_⟩⟩
      rw [Bool.eq_false_iff]
      intro later
      have := precedes_trans earlier later
      rw [precedes_irrefl] at this
      cases this

/-- Sorting brings different instances into the strict order. -/
theorem pairwise_before_mergeSort {instances : List Instance} (once : instances.Nodup) :
    (instances.mergeSort atMost).Pairwise fun i j => i.before j = true := by
  have sorted : (instances.mergeSort atMost).Pairwise fun i j => i.atMost j = true := by
    apply List.pairwise_mergeSort
    · intro i j k first second
      rw [atMost_iff] at first second ⊢
      rcases first with rfl | first
      · exact second
      · rcases second with rfl | second
        · exact .inr first
        · exact .inr (before_trans first second)
    · intro i j
      rw [Bool.or_eq_true, atMost_iff, atMost_iff]
      rcases before_trichotomy i j with earlier | same | later
      · exact .inl (.inr earlier)
      · exact .inl (.inl same)
      · exact .inr (.inr later)
  have distinct : (instances.mergeSort atMost).Nodup :=
    (List.mergeSort_perm instances atMost).nodup_iff.mpr once
  refine (List.pairwise_and_iff.mpr ⟨sorted, distinct⟩).imp fun {i j} h => ?_
  exact (atMost_iff.mp h.1).resolve_left h.2

end Instance

namespace Arena

variable {a : Arena} {params : List Int}

/-- Instances of all points of some domains, each of them once and with its time stamp. -/
structure Covers (a : Arena) (params : List Int) (domains : List (Nat × Polyhedron))
    (instances : List Instance) : Prop where
  exact : ∀ stmt point, (stmt, point) ∈ instances.map Instance.unstamped ↔
    ∃ domain, (stmt, domain) ∈ domains ∧ domain.Mem point params
  once : (instances.map Instance.unstamped).Nodup
  stamped : ∀ i ∈ instances, (a.timestamp i.stmt i.point params).run = .ok (.ok i.timestamp)

theorem Covers.perm {domains : List (Nat × Polyhedron)} {instances others : List Instance}
    (covers : a.Covers params domains instances) (perm : others.Perm instances) :
    a.Covers params domains others := by
  have keys := perm.map Instance.unstamped
  refine ⟨fun stmt point => ?_, keys.nodup_iff.mpr covers.once, fun i member => ?_⟩
  · rw [keys.mem_iff]
    exact covers.exact stmt point
  · exact covers.stamped i (perm.mem_iff.mp member)

/-- The instances of one statement, made from its points one by one. -/
theorem instancesOf_eq_ok {stmt : Nat} {domain : Polyhedron} {instances : List Instance}
    (h : (a.instancesOf params stmt domain).run = .ok (.ok instances)) :
    ∃ points, (domain.enumerate params).run = .ok (.ok points) ∧
      instances.map Instance.unstamped = points.map (Prod.mk stmt) ∧
      ∀ i ∈ instances, (a.timestamp i.stmt i.point params).run = .ok (.ok i.timestamp) := by
  obtain ⟨points, enumerated, walks⟩ := Eval.run_bind_eq_ok_iff.mp h
  refine ⟨points, enumerated, ?_⟩
  have each := Eval.mapM_eq_ok walks
  clear h walks enumerated
  induction each with
  | nil => simp
  | cons head _ ih =>
    obtain ⟨stamp, walked, same⟩ := Eval.run_bind_eq_ok_iff.mp head
    cases same
    exact ⟨congrArg _ ih.1, List.forall_mem_cons.mpr ⟨walked, ih.2⟩⟩

theorem covers_instancesOf {stmt : Nat} {domain : Polyhedron} {instances : List Instance}
    (h : (a.instancesOf params stmt domain).run = .ok (.ok instances)) :
    a.Covers params [(stmt, domain)] instances := by
  obtain ⟨points, enumerated, keys, stamped⟩ := instancesOf_eq_ok h
  have lists := Polyhedron.lists_enumerate enumerated
  refine ⟨fun stmt' point => ?_, ?_, stamped⟩
  · simp [keys, lists.exact, eq_comm, and_comm]
  · rw [keys]
    exact lists.nodup.map fun _ _ same => (Prod.mk.inj same).2

/-- Statements of which none is in both lists. -/
theorem Covers.append {left right : List (Nat × Polyhedron)} {first second : List Instance}
    (covers : a.Covers params left first) (covers' : a.Covers params right second)
    (apart : ∀ e ∈ left, ∀ e' ∈ right, e.1 ≠ e'.1) :
    a.Covers params (left ++ right) (first ++ second) := by
  refine ⟨fun stmt point => ?_, ?_, ?_⟩
  · rw [List.map_append, List.mem_append, covers.exact, covers'.exact, ← exists_or]
    simp only [List.mem_append, or_and_right]
  · rw [List.map_append, List.nodup_append]
    refine ⟨covers.once, covers'.once, ?_⟩
    rintro ⟨stmt, point⟩ here _ there rfl
    obtain ⟨domain, member, -⟩ := (covers.exact stmt point).mp here
    obtain ⟨domain', member', -⟩ := (covers'.exact stmt point).mp there
    exact apart _ member _ member' rfl
  · rw [List.forall_mem_append]
    exact ⟨covers.stamped, covers'.stamped⟩

theorem covers_flatten {domains : List (Nat × Polyhedron)} {parts : List (List Instance)}
    (each : List.Forall₂ (fun e part => (a.instancesOf params e.1 e.2).run = .ok (.ok part))
      domains parts) (sorted : domains.Pairwise fun e e' => e.1 < e'.1) :
    a.Covers params domains parts.flatten := by
  induction each with
  | nil => exact ⟨by simp, .nil, by simp⟩
  | @cons e part rest others head _ ih =>
    obtain ⟨above, tail⟩ := List.pairwise_cons.mp sorted
    refine (covers_instancesOf head).append (ih tail) fun e₁ here e₂ there => ?_
    rw [List.mem_singleton.mp here]
    exact (above e₂ there).ne

theorem executionOrder_eq_ok {order : List Instance}
    (h : (a.executionOrder params).run = .ok (.ok order)) :
    a.Covers params ((a.domains?.map (·.entries)).getD []) order ∧
      order.Pairwise fun i j => i.before j = true := by
  unfold executionOrder at h
  cases found : a.domains? with
  | none =>
    rw [found] at h
    cases h
    exact ⟨covers_flatten .nil .nil, .nil⟩
  | some domains =>
    rw [found] at h
    obtain ⟨parts, each, h⟩ := Eval.run_bind_eq_ok_iff.mp h
    cases h
    have covers := covers_flatten (Eval.mapM_eq_ok each) domains.sorted
    exact ⟨covers.perm (List.mergeSort_perm ..),
      Instance.pairwise_before_mergeSort covers.once.of_map⟩

end Arena

/-- Enumeration is exact. A list of points is that of all integer points of the set, in strictly
increasing order. An order of execution is that of all points of all domains, each of them once and
with its time stamp, strictly increasing by time stamp, statement and point. -/
theorem enumeration_exact :
    (∀ (s : Polyhedron) (params : List Int) (points : List (List Int)),
      (s.enumerate params).run = .ok (.ok points) →
        (∀ point, point ∈ points ↔ s.Mem point params) ∧ points.Nodup ∧
        points.Pairwise fun p q => precedes p q = true) ∧
    ∀ (a : Arena) (params : List Int) (order : List Instance),
      (a.executionOrder params).run = .ok (.ok order) →
        (∀ stmt point, (stmt, point) ∈ order.map Instance.unstamped ↔
          ∃ domain, a.domains?.bind (·.get? stmt) = some domain ∧ domain.Mem point params) ∧
        (order.map Instance.unstamped).Nodup ∧
        (∀ i ∈ order, (a.timestamp i.stmt i.point params).run = .ok (.ok i.timestamp)) ∧
        order.Pairwise fun i j => i.before j = true := by
  refine ⟨fun s params points h => ?_, fun a params order h => ?_⟩
  · have lists := Polyhedron.lists_enumerate h
    exact ⟨fun point => by simp [lists.exact], lists.nodup, lists.increasing⟩
  · obtain ⟨covers, increasing⟩ := Arena.executionOrder_eq_ok h
    refine ⟨fun stmt point => ?_, covers.once, covers.stamped, increasing⟩
    rw [covers.exact]
    cases a.domains? with
    | none => simp
    | some domains => simp [StmtMap.get?_eq_some_iff]

/-- The even numbers up to 4 and their halves. The last constraint has a coefficient for an iterator
that the points do not have. -/
def Polyhedron.halves : Polyhedron :=
  ⟨2, 0, [.nonneg ⟨0, [1], []⟩, .nonneg ⟨6, [-1, 0], []⟩, .zero ⟨0, [1, -2], []⟩,
    .nonneg ⟨5, [-1, 0, 3], []⟩]⟩

/-- Two statements in one loop. The first takes its time from the second iterator. -/
def Arena.interleaved : Arena :=
  ⟨#[⟨.domain (.ofList [(0, .halves), (1, ⟨1, 0, [.nonneg ⟨0, [1], []⟩, .nonneg ⟨1, [-1], []⟩]⟩)]),
      [1]⟩,
    ⟨.band (.ofSchedule [⟨true, true⟩]
      (.ofList [(0, [.affine ⟨0, [0, 1], []⟩]), (1, [.affine ⟨1, [1], []⟩])])), [2]⟩,
    ⟨.leaf, []⟩], 0⟩

theorem interleaved_enumeration_exact : ∃ order,
    (Polyhedron.halves.enumerate []).run = .ok (.ok [[0, 0], [2, 1], [4, 2]]) ∧
    (∀ point, point ∈ [[0, 0], [2, 1], [4, 2]] ↔ Polyhedron.halves.Mem point []) ∧
    (Arena.interleaved.executionOrder []).run = .ok (.ok order) ∧
    order.map Instance.unstamped = [(0, [0, 0]), (0, [2, 1]), (1, [0]), (0, [4, 2]), (1, [1])] ∧
    (order.map Instance.unstamped).Nodup ∧ order.Pairwise fun i j => i.before j = true := by
  obtain ⟨sets, orders⟩ := enumeration_exact
  have points : (Polyhedron.halves.enumerate []).run = .ok (.ok [[0, 0], [2, 1], [4, 2]]) := by
    decide +kernel
  let first : List Instance := [⟨[0], 0, [0, 0]⟩, ⟨[1], 0, [2, 1]⟩, ⟨[2], 0, [4, 2]⟩]
  let second : List Instance := [⟨[1], 1, [0]⟩, ⟨[2], 1, [1]⟩]
  have sorted : [first, second].flatten.mergeSort Instance.atMost = [⟨[0], 0, [0, 0]⟩,
      ⟨[1], 0, [2, 1]⟩, ⟨[1], 1, [0]⟩, ⟨[2], 0, [4, 2]⟩, ⟨[2], 1, [1]⟩] := by
    simp [first, second, List.mergeSort, Instance.atMost, precedes]
  have ran : (Arena.interleaved.executionOrder []).run = .ok (.ok [⟨[0], 0, [0, 0]⟩,
      ⟨[1], 0, [2, 1]⟩, ⟨[1], 1, [0]⟩, ⟨[2], 0, [4, 2]⟩, ⟨[2], 1, [1]⟩]) := by
    rw [← sorted]
    exact Eval.run_bind_eq_ok_iff.mpr ⟨[first, second], by decide +kernel, rfl⟩
  obtain ⟨-, once, -, increasing⟩ := orders _ _ _ ran
  exact ⟨_, points, (sets _ _ _ points).1, ran, rfl, once, increasing⟩

end LoopNest
