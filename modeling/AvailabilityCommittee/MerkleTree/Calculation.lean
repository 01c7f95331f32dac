import AvailabilityCommittee.MerkleTree.Node
import AvailabilityCommittee.Objects.StarkexState

/-! # Calculation trees

An update of a Merkle tree is planned as a calculation tree (`MerkleCalculationNode`) and then
evaluated bottom-up.  The leaves of the plan are `ConstantCalculation(value)` (a subtree kept as
it is) and `LeafFactCalculation(fact)` (a modified leaf); the inner nodes are
`BinaryCalculation(left, right)`, which hashes its two dependency results and records the new
node fact in the shared dictionary `fact_nodes`.

The evaluator of `calculation.py` evaluates the dependency graph in some topological order, and
independent subtrees may be evaluated concurrently into one `fact_nodes`.  A calculation is named
here by its position, the path from the root (`false` is left); `evalStep` evaluates one
position from the results of its dependencies, and a schedule is any list of positions that
evaluates each one after its dependencies (`Topological`).

* `HashCalculation.value`: the Merkle hash of the constants and leaf-fact hashes at the leaves,
  `hash_func(left, right)` at each `BinaryCalculation`.
* `evalSchedule_ok`: every topological schedule succeeds and computes `value` at each position
  it evaluates, whatever it interleaves; every entry it adds to `fact_nodes` is stored under the
  hash of its fact (`AddsHashed`), and with an injective `hash_func` it keeps every entry of a
  content-addressed dictionary.
* `CalculationPlan.build_ok`: a plan made of `create_from_node`, `create_from_fact` and
  `combine` builds a node whose root calculation hashes to the plan's Merkle hash and whose
  height is each leaf's height plus its combine depth.
* `CalculationPlan.fullCalculate_build` puts the two together: every topological order of a built
  calculation yields the same `MerkleTreeNode`. -/

namespace AvailabilityCommittee

/-- `NodeFactDict`: the inner node facts an evaluation creates, by hash. -/
abbrev NodeFactDict := Bytes → Option MerkleNodeFact

/-- `fact_nodes[key] = fact`. -/
def NodeFactDict.insert (factNodes : NodeFactDict) (key : Bytes) (fact : MerkleNodeFact) :
    NodeFactDict :=
  fun k => if k = key then some fact else factNodes k

/-- Every entry of `factNodes'` is an entry of `factNodes` or stored under the hash of its fact. -/
def AddsHashed (hashFunc : HashFunc) (factNodes factNodes' : NodeFactDict) : Prop :=
  ∀ k fact, factNodes' k = some fact → factNodes k = some fact ∨ fact.hash hashFunc = k

/-- Every entry of the dictionary is stored under the hash of its fact. -/
def DictHashed (hashFunc : HashFunc) (factNodes : NodeFactDict) : Prop :=
  ∀ k fact, factNodes k = some fact → fact.hash hashFunc = k

/-- Every entry of `factNodes` is still in `factNodes'`. -/
def Keeps (factNodes factNodes' : NodeFactDict) : Prop :=
  ∀ k fact, factNodes k = some fact → factNodes' k = some fact

/-- What an evaluation does to `fact_nodes`: it adds only entries stored under the hash of their
fact, and with an injective `hash_func` it keeps every entry of a hashed dictionary. -/
structure DictStep (hashFunc : HashFunc) (factNodes factNodes' : NodeFactDict) : Prop where
  adds : AddsHashed hashFunc factNodes factNodes'
  keeps : Function.Injective2 hashFunc → DictHashed hashFunc factNodes → Keeps factNodes factNodes'

theorem Keeps.trans {d₁ d₂ d₃ : NodeFactDict} (h₁ : Keeps d₁ d₂) (h₂ : Keeps d₂ d₃) : Keeps d₁ d₃ :=
  fun k f h => h₂ k f (h₁ k f h)

theorem AddsHashed.dictHashed {hashFunc : HashFunc} {d d' : NodeFactDict}
    (h : AddsHashed hashFunc d d') (hd : DictHashed hashFunc d) : DictHashed hashFunc d' :=
  fun k f hk => (h k f hk).elim (hd k f) id

theorem DictStep.refl (hashFunc : HashFunc) (d : NodeFactDict) : DictStep hashFunc d d :=
  ⟨fun _ _ => .inl, fun _ _ _ _ => id⟩

theorem DictStep.trans {hashFunc : HashFunc} {d₁ d₂ d₃ : NodeFactDict}
    (h₁ : DictStep hashFunc d₁ d₂) (h₂ : DictStep hashFunc d₂ d₃) : DictStep hashFunc d₁ d₃ :=
  ⟨fun k f h => (h₂.adds k f h).elim (h₁.adds k f) Or.inr,
    fun hinj hd => (h₁.keeps hinj hd).trans (h₂.keeps hinj (h₁.adds.dictHashed hd))⟩

/-- A write under the hash of its fact adds a hashed entry, and with an injective `hash_func`
never replaces an entry of a hashed dictionary. -/
theorem dictStep_insert (hashFunc : HashFunc) (d : NodeFactDict) (fact : MerkleNodeFact) :
    DictStep hashFunc d (d.insert (fact.hash hashFunc) fact) := by
  constructor
  · intro k f h
    unfold NodeFactDict.insert at h
    split_ifs at h with hk
    · cases h; exact .inr hk.symm
    · exact .inl h
  · intro hinj hd k f h
    unfold NodeFactDict.insert
    split_ifs with hk
    · obtain ⟨hl, hr⟩ := hinj ((hd k f h).trans hk)
      rw [← h]; cases f; cases fact; simp_all
    · exact h

/-- A calculation of a hash: `ConstantCalculation`, `LeafFactCalculation` or
`BinaryCalculation`.  Modelled from the spec: `calculation.py` is not in the repository. -/
inductive HashCalculation (Leaf : Type) where
  /-- `ConstantCalculation(value)`: an existing hash. -/
  | constant (value : Bytes)
  /-- `LeafFactCalculation(fact)`: the hash of a new leaf. -/
  | leafFact (fact : Leaf)
  /-- `BinaryCalculation(left, right)`. -/
  | binary (left right : HashCalculation Leaf)

namespace HashCalculation

variable {Leaf : Type} [LeafFact Leaf] (hashFunc : HashFunc)

/-! ### Executable definitions -/

/-- `calculate(dependency_results, hash_func, fact_nodes)`.  A `BinaryCalculation` unpacks its two
dependency results, stores the node fact under its hash and returns the hash; the constants and
leaf facts have no dependencies. -/
def calculate : HashCalculation Leaf → List Bytes → NodeFactDict → Except String (Bytes × NodeFactDict)
  | constant value, _, factNodes => .ok (value, factNodes)
  | leafFact fact, _, factNodes => .ok (LeafFact.hash hashFunc fact, factNodes)
  | binary _ _, [leftHash, rightHash], factNodes =>
    let fact : MerkleNodeFact := ⟨leftHash, rightHash⟩
    .ok (fact.hash hashFunc, factNodes.insert (fact.hash hashFunc) fact)
  | binary _ _, results, _ =>
    if results.length < 2 then
      .error s!"not enough values to unpack (expected 2, got {results.length})"
    else .error "too many values to unpack (expected 2)"

/-- The calculation at a position: `false` steps to the left dependency, `true` to the right. -/
def atPosition (c : HashCalculation Leaf) : List Bool → Option (HashCalculation Leaf)
  | [] => some c
  | b :: p => match c with
    | binary left right => (if b then right else left).atPosition p
    | _ => none

/-- The positions of `get_dependency_calculations()` of the calculation `c` at `p`. -/
def dependencyPositions : HashCalculation Leaf → List Bool → List (List Bool)
  | binary _ _, p => [p ++ [false], p ++ [true]]
  | _, _ => []

/-- The hash the calculation computes: the Merkle hash of the constants and leaf-fact hashes at
its leaves. -/
def value : HashCalculation Leaf → Bytes
  | constant value => value
  | leafFact fact => LeafFact.hash hashFunc fact
  | binary left right => hashFunc left.value right.value

/-- The results of the calculation's dependencies, once they are calculated. -/
def dependencyValues : HashCalculation Leaf → List Bytes
  | binary left right => [left.value hashFunc, right.value hashFunc]
  | _ => []

/-- The positions below the root in post-order: each subtree before its root, left before
right. -/
def descendants : HashCalculation Leaf → List (List Bool)
  | binary left right => (left.descendants ++ [[]]).map (false :: ·) ++
      (right.descendants ++ [[]]).map (true :: ·)
  | _ => []

/-- The node fact of a `BinaryCalculation` is in the dictionary, under its hash. -/
def NodeRecorded (factNodes : NodeFactDict) : HashCalculation Leaf → Prop
  | binary left right =>
    factNodes (hashFunc (left.value hashFunc) (right.value hashFunc)) =
      some ⟨left.value hashFunc, right.value hashFunc⟩
  | _ => True

/-- The node facts of all the `BinaryCalculation`s of `c` are in the dictionary. -/
def Recorded (factNodes : NodeFactDict) (c : HashCalculation Leaf) : Prop :=
  ∀ p sub, c.atPosition p = some sub → NodeRecorded hashFunc factNodes sub

/-! ### Positions -/

variable {hashFunc}

omit [LeafFact Leaf] in
theorem atPosition_append (c : HashCalculation Leaf) (p q : List Bool) :
    c.atPosition (p ++ q) = (c.atPosition p).bind (·.atPosition q) := by
  induction p generalizing c with
  | nil => rfl
  | cons b p ih => cases c with
    | binary l r => exact ih _
    | constant _ => rfl
    | leafFact _ => rfl

omit [LeafFact Leaf] in
theorem atPosition_append_bit {c : HashCalculation Leaf} {p : List Bool}
    {left right : HashCalculation Leaf} (h : c.atPosition p = some (binary left right)) (b : Bool) :
    c.atPosition (p ++ [b]) = some (if b then right else left) := by
  rw [atPosition_append, h]; cases b <;> rfl

omit [LeafFact Leaf] in
theorem atPosition_append_bit_inv {c sub : HashCalculation Leaf} {p : List Bool} {b : Bool}
    (h : c.atPosition (p ++ [b]) = some sub) :
    ∃ left right, c.atPosition p = some (binary left right) ∧ sub = if b then right else left := by
  rw [atPosition_append] at h
  rcases hp : c.atPosition p with _ | (_ | _ | ⟨left, right⟩) <;> rw [hp] at h <;> cases h
  exact ⟨left, right, rfl, rfl⟩

omit [LeafFact Leaf] in
@[simp] theorem dependencyPositions_cons (c : HashCalculation Leaf) (b : Bool) (p : List Bool) :
    c.dependencyPositions (b :: p) = (c.dependencyPositions p).map (b :: ·) := by
  cases c <;> rfl

theorem NodeRecorded.keeps {d d' : NodeFactDict} (hkeep : Keeps d d') :
    ∀ {c : HashCalculation Leaf}, NodeRecorded hashFunc d c → NodeRecorded hashFunc d' c
  | binary _ _, h => hkeep _ _ h
  | constant _, _ => trivial
  | leafFact _, _ => trivial

theorem Recorded.left {d : NodeFactDict} {left right : HashCalculation Leaf}
    (h : Recorded hashFunc d (binary left right)) : Recorded hashFunc d left :=
  fun p sub hp => h (false :: p) sub hp

theorem Recorded.right {d : NodeFactDict} {left right : HashCalculation Leaf}
    (h : Recorded hashFunc d (binary left right)) : Recorded hashFunc d right :=
  fun p sub hp => h (true :: p) sub hp

theorem Recorded.keeps {d d' : NodeFactDict} (hkeep : Keeps d d') {c : HashCalculation Leaf}
    (h : Recorded hashFunc d c) : Recorded hashFunc d' c :=
  fun p sub hp => (h p sub hp).keeps hkeep

/-- Given the results of its dependencies, a calculation returns its value and records its node
fact. -/
theorem calculate_dependencyValues (c : HashCalculation Leaf) (d : NodeFactDict) :
    ∃ d', c.calculate hashFunc (c.dependencyValues hashFunc) d = .ok (c.value hashFunc, d') ∧
      NodeRecorded hashFunc d' c := by
  cases c with
  | binary left right => exact ⟨_, rfl, if_pos rfl⟩
  | constant _ => exact ⟨_, rfl, trivial⟩
  | leafFact _ => exact ⟨_, rfl, trivial⟩

/-- Whatever its dependency results, `calculate` adds at most a hashed entry. -/
theorem calculate_dictStep {c : HashCalculation Leaf} {results : List Bytes} {d d' : NodeFactDict}
    {v : Bytes} (h : c.calculate hashFunc results d = .ok (v, d')) : DictStep hashFunc d d' := by
  match c, results, h with
  | constant _, _, h => cases h; exact .refl hashFunc d
  | leafFact _, _, h => cases h; exact .refl hashFunc d
  | binary _ _, [l, r], h => cases h; exact dictStep_insert hashFunc d ⟨l, r⟩
  | binary _ _, [], h => cases h
  | binary _ _, [_], h => cases h
  | binary _ _, _ :: _ :: _ :: _, h => cases h

end HashCalculation

/-! ### Evaluation in a topological order -/

section Evaluation

open HashCalculation

variable {Leaf : Type} [LeafFact Leaf] (hashFunc : HashFunc)

/-- The state of an evaluation: the results so far, by position, and the shared `fact_nodes`. -/
structure EvalState where
  results : List Bool → Option Bytes
  factNodes : NodeFactDict

/-- The result at a dependency position, which must have been calculated. -/
def dependencyResult (σ : EvalState) (q : List Bool) : Except String Bytes :=
  match σ.results q with
  | some v => .ok v
  | none => .error "dependency not calculated"

/-- Evaluate the calculation at `position` from the results of its dependencies.  Modelled from
the spec: the evaluator of `calculation.py` is not in the repository. -/
def evalStep (c : HashCalculation Leaf) (σ : EvalState) (position : List Bool) :
    Except String EvalState :=
  match c.atPosition position with
  | none => .error "no calculation at this position"
  | some sub => do
    let results ← (sub.dependencyPositions position).mapM (dependencyResult σ)
    let (v, factNodes) ← sub.calculate hashFunc results σ.factNodes
    return ⟨fun q => if q = position then some v else σ.results q, factNodes⟩

/-- Evaluate the positions of a schedule one after the other. -/
def evalSchedule (c : HashCalculation Leaf) (σ : EvalState) (schedule : List (List Bool)) :
    Except String EvalState :=
  schedule.foldlM (evalStep hashFunc c) σ

/-- `schedule` evaluates positions of `c` only, each after its dependencies; `done` are the
positions calculated before it. -/
def Topological (c : HashCalculation Leaf) : List (List Bool) → List (List Bool) → Prop
  | _, [] => True
  | done, p :: rest => (c.atPosition p).isSome ∧
      (∀ sub ∈ c.atPosition p, ∀ q ∈ sub.dependencyPositions p, q ∈ done) ∧
      Topological c (p :: done) rest

instance (c : HashCalculation Leaf) : ∀ done schedule, Decidable (Topological c done schedule)
  | _, [] => isTrue trivial
  | done, p :: rest =>
    haveI := instDecidableTopological c (p :: done) rest
    inferInstanceAs (Decidable (_ ∧ _ ∧ _))

/-- Every result recorded is the value of the calculation at its position. -/
def Sound (c : HashCalculation Leaf) (σ : EvalState) : Prop :=
  ∀ p v, σ.results p = some v → ∃ sub, c.atPosition p = some sub ∧ sub.value hashFunc = v

theorem sound_init (c : HashCalculation Leaf) (factNodes : NodeFactDict) :
    Sound hashFunc c ⟨fun _ => none, factNodes⟩ :=
  fun _ _ h => by cases h

variable {hashFunc}

theorem dependencyResult_of_sound {c : HashCalculation Leaf} {σ : EvalState} {p : List Bool}
    {sub : HashCalculation Leaf} (hσ : Sound hashFunc c σ) (hp : c.atPosition p = some sub) :
    (∀ q ∈ sub.dependencyPositions p, (σ.results q).isSome) →
      (sub.dependencyPositions p).mapM (dependencyResult σ) = .ok (sub.dependencyValues hashFunc) := by
  intro hdeps
  cases sub with
  | constant _ => rfl
  | leafFact _ => rfl
  | binary left right =>
    have hres : ∀ b, σ.results (p ++ [b]) = some ((if b then right else left).value hashFunc) := by
      intro b
      obtain ⟨v, hv⟩ := Option.isSome_iff_exists.mp
        (hdeps (p ++ [b]) (by cases b <;> simp [dependencyPositions]))
      obtain ⟨sub', hc', rfl⟩ := hσ _ _ hv
      rw [atPosition_append_bit hp b] at hc'
      cases hc'; exact hv
    simp only [dependencyPositions, List.mapM_cons, List.mapM_nil, dependencyResult,
      hres false, hres true]
    rfl

/-- One step: with its dependencies calculated, the calculation at `p` records its value and its
node fact. -/
theorem evalStep_ok {c : HashCalculation Leaf} {σ : EvalState} {p : List Bool}
    {sub : HashCalculation Leaf} (hσ : Sound hashFunc c σ) (hp : c.atPosition p = some sub)
    (hdeps : ∀ q ∈ sub.dependencyPositions p, (σ.results q).isSome) :
    ∃ d', evalStep hashFunc c σ p =
        .ok ⟨fun q => if q = p then some (sub.value hashFunc) else σ.results q, d'⟩ ∧
      DictStep hashFunc σ.factNodes d' ∧ NodeRecorded hashFunc d' sub := by
  obtain ⟨d', hsub, hrec⟩ := calculate_dependencyValues sub σ.factNodes
  refine ⟨d', ?_, calculate_dictStep hsub, hrec⟩
  simp only [evalStep, hp, dependencyResult_of_sound hσ hp hdeps, except_ok_bind, hsub]
  rfl

theorem Sound.record {c : HashCalculation Leaf} {σ : EvalState} (hσ : Sound hashFunc c σ)
    {p : List Bool} {sub : HashCalculation Leaf} (hp : c.atPosition p = some sub)
    (d : NodeFactDict) :
    Sound hashFunc c ⟨fun q => if q = p then some (sub.value hashFunc) else σ.results q, d⟩ := by
  intro q v hq
  dsimp only at hq
  split_ifs at hq with h
  · subst h; cases hq; exact ⟨sub, hp, rfl⟩
  · exact hσ q v hq

/-- A whole run: a topological schedule from a sound state succeeds, records the value of every
position it evaluates and keeps the earlier results; the dictionary only gains hashed entries,
and with an injective `hash_func` it ends up holding the node fact of every evaluated
position. -/
theorem evalSchedule_ok {c : HashCalculation Leaf} (schedule : List (List Bool)) :
    ∀ (done : List (List Bool)) (σ : EvalState), Topological c done schedule → Sound hashFunc c σ →
      (∀ q ∈ done, (σ.results q).isSome) →
      ∃ σ', evalSchedule hashFunc c σ schedule = .ok σ' ∧ Sound hashFunc c σ' ∧
        (∀ q, q ∈ schedule ∨ q ∈ done → (σ'.results q).isSome) ∧
        DictStep hashFunc σ.factNodes σ'.factNodes ∧
        (Function.Injective2 hashFunc → DictHashed hashFunc σ.factNodes →
          ∀ q ∈ schedule, ∀ sub, c.atPosition q = some sub →
            NodeRecorded hashFunc σ'.factNodes sub) := by
  induction schedule with
  | nil =>
    intro done σ _ hσ hdone
    exact ⟨σ, rfl, hσ, by simpa using hdone, .refl hashFunc _, fun _ _ q hq => by cases hq⟩
  | cons p rest ih =>
    intro done σ ⟨hp, hdeps, hrest⟩ hσ hdone
    obtain ⟨sub, hsub⟩ := Option.isSome_iff_exists.mp hp
    obtain ⟨d', hstep, hdict, hrec⟩ :=
      evalStep_ok hσ hsub fun q hq => hdone q (hdeps sub hsub q hq)
    obtain ⟨σ', hrun, hσ', hres, hdict', hrec'⟩ := ih (p :: done) _ hrest (hσ.record hsub d')
      (by
        intro q hq
        by_cases hqp : q = p
        · simp [hqp]
        · simpa [hqp] using hdone q ((List.mem_cons.mp hq).resolve_left hqp))
    refine ⟨σ', by simpa [evalSchedule, hstep] using hrun, hσ', ?_, hdict.trans hdict', ?_⟩
    · intro q hq
      apply hres q
      rcases hq with hq | hq
      · rcases List.mem_cons.mp hq with rfl | hq
        · exact .inr (List.mem_cons_self _ _)
        · exact .inl hq
      · exact .inr (List.mem_cons_of_mem _ hq)
    · intro hinj hd q hq sub' hq'
      have hd' := hdict.adds.dictHashed hd
      rcases List.mem_cons.mp hq with rfl | hq
      · cases hsub.symm.trans hq'
        exact hrec.keeps (hdict'.keeps hinj hd')
      · exact hrec' hinj hd' q hq sub' hq'

omit [LeafFact Leaf] in
/-- In a topological schedule, the dependencies of an evaluated position are evaluated before it
or were done. -/
theorem Topological.dependency_mem {c : HashCalculation Leaf} :
    ∀ {done schedule : List (List Bool)}, Topological c done schedule →
      ∀ {p sub}, p ∈ schedule → c.atPosition p = some sub →
        ∀ q ∈ sub.dependencyPositions p, q ∈ schedule ∨ q ∈ done
  | _, [], _, _, _, hp, _ => by cases hp
  | done, p' :: rest, ⟨_, hdeps, hrest⟩, p, sub, hp, hsub => by
    intro q hq
    rcases List.mem_cons.mp hp with rfl | hp
    · exact .inr (hdeps sub hsub q hq)
    · rcases hrest.dependency_mem hp hsub q hq with h | h
      · exact .inl (List.mem_cons_of_mem _ h)
      · rcases List.mem_cons.mp h with rfl | h
        · exact .inl (List.mem_cons_self _ _)
        · exact .inr h

omit [LeafFact Leaf] in
theorem topological_append {c : HashCalculation Leaf} (xs ys : List (List Bool)) :
    ∀ {done}, Topological c done xs → Topological c (xs.reverse ++ done) ys →
      Topological c done (xs ++ ys) := by
  induction xs with
  | nil => intro done _ h; exact h
  | cons x xs ih =>
    intro done ⟨hx, hdeps, hrest⟩ hys
    exact ⟨hx, hdeps, ih hrest (by simpa using hys)⟩

omit [LeafFact Leaf] in
theorem Topological.mono {c : HashCalculation Leaf} :
    ∀ {done done' schedule : List (List Bool)}, (∀ q ∈ done, q ∈ done') →
      Topological c done schedule → Topological c done' schedule
  | _, _, [], _, _ => trivial
  | _, _, _ :: _, hsub, ⟨hx, hdeps, hrest⟩ =>
    ⟨hx, fun sub hs q hq => hsub q (hdeps sub hs q hq),
      hrest.mono fun q hq => (List.mem_cons.mp hq).elim (· ▸ List.mem_cons_self _ _)
        fun h => List.mem_cons_of_mem _ (hsub q h)⟩

omit [LeafFact Leaf] in
/-- A schedule of a dependency is a schedule of the same positions below it. -/
theorem Topological.map_cons {left right : HashCalculation Leaf} (b : Bool) :
    ∀ {done done' schedule : List (List Bool)}, (∀ q ∈ done, (b :: q) ∈ done') →
      Topological (if b then right else left) done schedule →
      Topological (binary left right) done' (schedule.map (b :: ·))
  | _, _, [], _, _ => trivial
  | _, _, _ :: _, hsub, ⟨hx, hdeps, hrest⟩ => by
    refine ⟨hx, fun sub hs q hq => ?_, hrest.map_cons b ?_⟩
    · rw [dependencyPositions_cons, List.mem_map] at hq
      obtain ⟨q, hq, rfl⟩ := hq
      exact hsub q (hdeps sub hs q hq)
    · intro q hq
      rcases List.mem_cons.mp hq with rfl | hq
      · exact List.mem_cons_self _ _
      · exact List.mem_cons_of_mem _ (hsub q hq)

omit [LeafFact Leaf] in
/-- A schedule of the positions below the root that evaluates the root's dependencies extends to
the root. -/
theorem Topological.append_root {c : HashCalculation Leaf} {schedule : List (List Bool)}
    (hs : Topological c [] schedule) (hroot : ∀ q ∈ c.dependencyPositions [], q ∈ schedule) :
    Topological c [] (schedule ++ [[]]) :=
  topological_append _ _ hs
    ⟨rfl, fun sub hsub q hq => by
      cases hsub; exact List.mem_append_left _ (List.mem_reverse.mpr (hroot q hq)), trivial⟩

omit [LeafFact Leaf] in
/-- The post-order is a topological schedule, and it evaluates the dependencies of the root. -/
theorem topological_descendants :
    ∀ c : HashCalculation Leaf, Topological c [] c.descendants ∧
      ∀ q ∈ c.dependencyPositions [], q ∈ c.descendants
  | constant _ => ⟨trivial, fun _ h => by cases h⟩
  | leafFact _ => ⟨trivial, fun _ h => by cases h⟩
  | binary left right => by
    obtain ⟨hl, hl'⟩ := topological_descendants left
    obtain ⟨hr, hr'⟩ := topological_descendants right
    refine ⟨topological_append _ _ ((hl.append_root hl').map_cons false fun _ h => by cases h)
      ((hr.append_root hr').map_cons true fun _ h => by cases h), ?_⟩
    simp [descendants, dependencyPositions]

end Evaluation


/-! ### Calculation nodes -/

/-- `MerkleCalculationNode`: a root calculation and the height of the node it computes. -/
structure MerkleCalculationNode (Leaf : Type) where
  rootCalculation : HashCalculation Leaf
  height : Int

namespace MerkleCalculationNode

open HashCalculation

variable {Leaf : Type} [LeafFact Leaf] (hashFunc : HashFunc)

/-- `MerkleCalculationNode.calculate`: the root calculation's hash, at the node's height. -/
def calculate (node : MerkleCalculationNode Leaf) (dependencyResults : List Bytes)
    (factNodes : NodeFactDict) : Except String (MerkleTreeNode × NodeFactDict) := do
  let (rootValue, factNodes) ← node.rootCalculation.calculate hashFunc dependencyResults factNodes
  return (⟨rootValue, node.height⟩, factNodes)

/-- `MerkleCalculationNode.combine`: a `BinaryCalculation` over two nodes of one height. -/
def combine (left right : MerkleCalculationNode Leaf) : Except String (MerkleCalculationNode Leaf) :=
  if right.height = left.height then
    .ok ⟨.binary left.rootCalculation right.rootCalculation, left.height + 1⟩
  else .error ("Only trees of same height can be combined; " ++
    s!"got: left={left.height} right={right.height}.")

/-- `MerkleCalculationNode.create_from_node`. -/
def createFromNode (node : MerkleTreeNode) : MerkleCalculationNode Leaf :=
  ⟨.constant node.root, node.height⟩

/-- `MerkleCalculationNode.create_from_fact`. -/
def createFromFact (fact : Leaf) : MerkleCalculationNode Leaf := ⟨.leafFact fact, 0⟩

/-- Evaluate the dependencies of the node in the order `schedule`, then the node itself (the
node's dependencies are those of its root calculation, at the positions below the root). -/
def fullCalculate (node : MerkleCalculationNode Leaf) (schedule : List (List Bool))
    (factNodes : NodeFactDict) : Except String (MerkleTreeNode × NodeFactDict) := do
  let σ ← evalSchedule hashFunc node.rootCalculation ⟨fun _ => none, factNodes⟩ schedule
  let results ← (node.rootCalculation.dependencyPositions []).mapM (dependencyResult σ)
  node.calculate hashFunc results σ.factNodes

/-- `schedule` is a topological order of the node's dependencies: it evaluates each position after
its dependencies, and it evaluates the dependencies of the root. -/
def Schedules (node : MerkleCalculationNode Leaf) (schedule : List (List Bool)) : Prop :=
  Topological node.rootCalculation [] schedule ∧
    ∀ q ∈ node.rootCalculation.dependencyPositions [], q ∈ schedule

instance (node : MerkleCalculationNode Leaf) (schedule : List (List Bool)) :
    Decidable (node.Schedules schedule) :=
  inferInstanceAs (Decidable (_ ∧ _))

variable {hashFunc}

omit [LeafFact Leaf] in
/-- A topological order of the node's dependencies evaluates every position below the root. -/
theorem Schedules.mem {node : MerkleCalculationNode Leaf} {schedule : List (List Bool)}
    (hs : node.Schedules schedule) (p : List Bool) :
    ∀ {sub}, node.rootCalculation.atPosition p = some sub → p ≠ [] → p ∈ schedule := by
  induction p using List.reverseRecOn with
  | nil => intro _ _ h; exact absurd rfl h
  | append_singleton q b ih =>
    intro sub hp _
    obtain ⟨left, right, hq, -⟩ := atPosition_append_bit_inv hp
    have hdep : q ++ [b] ∈ (binary left right).dependencyPositions q := by
      cases b <;> simp [dependencyPositions]
    by_cases hq0 : q = []
    · subst hq0
      exact hs.2 _ (by rw [show node.rootCalculation = _ from Option.some.inj hq]; exact hdep)
    · exact (hs.1.dependency_mem (ih hq hq0) hq _ hdep).resolve_right (by simp)

omit [LeafFact Leaf] in
theorem schedules_descendants (node : MerkleCalculationNode Leaf) :
    node.Schedules node.rootCalculation.descendants :=
  topological_descendants node.rootCalculation

/-- Every topological order evaluates the node to its root calculation's hash at its height; the
dictionary only gains hashed entries, and with an injective `hash_func` it holds every node fact
of the calculation. -/
theorem fullCalculate_ok (node : MerkleCalculationNode Leaf) {schedule : List (List Bool)}
    (hs : node.Schedules schedule) (factNodes : NodeFactDict) :
    ∃ factNodes', node.fullCalculate hashFunc schedule factNodes =
        .ok (⟨node.rootCalculation.value hashFunc, node.height⟩, factNodes') ∧
      DictStep hashFunc factNodes factNodes' ∧
      (Function.Injective2 hashFunc → DictHashed hashFunc factNodes →
        Recorded hashFunc factNodes' node.rootCalculation) := by
  obtain ⟨σ, hrun, hσ, hres, hdict, hrec⟩ := evalSchedule_ok schedule [] _ hs.1
    (sound_init hashFunc node.rootCalculation factNodes) (fun _ h => by cases h)
  have hdeps := dependencyResult_of_sound hσ (show node.rootCalculation.atPosition [] = _ from rfl)
    fun q hq => hres q (.inl (hs.2 q hq))
  obtain ⟨d', hcalc, hroot⟩ := calculate_dependencyValues node.rootCalculation σ.factNodes
  have hdict' := calculate_dictStep hcalc
  refine ⟨d', ?_, hdict.trans hdict', fun hinj hd p sub hp => ?_⟩
  · simp only [fullCalculate, hrun, hdeps, calculate, hcalc, except_ok_bind]
    rfl
  · by_cases hp0 : p = []
    · subst hp0; cases hp; exact hroot
    · exact (hrec hinj hd p (hs.mem p hp hp0) sub hp).keeps
        (hdict'.keeps hinj (hdict.adds.dictHashed hd))

end MerkleCalculationNode

/-! ### Building a calculation -/

/-- How a calculation tree is put together: `create_from_node`, `create_from_fact` and
`combine`. -/
inductive CalculationPlan (Leaf : Type) where
  | fromNode (node : MerkleTreeNode)
  | fromFact (fact : Leaf)
  | combine (left right : CalculationPlan Leaf)

namespace CalculationPlan

open MerkleCalculationNode

variable {Leaf : Type} [LeafFact Leaf] (hashFunc : HashFunc)

/-- Build the plan's `MerkleCalculationNode`; `combine` refuses children of different heights. -/
def build : CalculationPlan Leaf → Except String (MerkleCalculationNode Leaf)
  | fromNode node => .ok (createFromNode node)
  | fromFact fact => .ok (createFromFact fact)
  | combine left right => do
    let left ← left.build
    let right ← right.build
    MerkleCalculationNode.combine left right

/-- The Merkle hash of the plan: the node roots and leaf-fact hashes at its leaves, combined with
`hash_func(left, right)`. -/
def rootHash : CalculationPlan Leaf → Bytes
  | fromNode node => node.root
  | fromFact fact => LeafFact.hash hashFunc fact
  | combine left right => hashFunc left.rootHash right.rootHash

/-- The leaves of the plan: their combine depth and their height. -/
def leafHeights : CalculationPlan Leaf → List (Nat × Int)
  | fromNode node => [(0, node.height)]
  | fromFact _ => [(0, 0)]
  | combine left right => (left.leafHeights ++ right.leafHeights).map fun (d, h) => (d + 1, h)

/-- A plan that builds has the plan's Merkle hash at its root, and its height is every leaf's
height plus that leaf's combine depth. -/
theorem build_ok : ∀ {plan : CalculationPlan Leaf} {node : MerkleCalculationNode Leaf},
    plan.build = .ok node →
      node.rootCalculation.value hashFunc = plan.rootHash hashFunc ∧
        ∀ dh ∈ plan.leafHeights, node.height = dh.2 + dh.1
  | fromNode _, _, h => by cases h; exact ⟨rfl, by simp [leafHeights, createFromNode]⟩
  | fromFact _, _, h => by cases h; exact ⟨rfl, by simp [leafHeights, createFromFact]⟩
  | combine left right, node, h => by
    rcases hl : left.build with _ | l
    · simp [build, hl] at h
    rcases hr : right.build with _ | r
    · simp [build, hl, hr] at h
    simp only [build, hl, hr, except_ok_bind, MerkleCalculationNode.combine] at h
    split_ifs at h with hh
    cases h
    obtain ⟨hlv, hlh⟩ := build_ok hl
    obtain ⟨hrv, hrh⟩ := build_ok hr
    refine ⟨by simp only [HashCalculation.value, hlv, hrv, rootHash], ?_⟩
    simp only [leafHeights, List.mem_map, List.mem_append]
    rintro _ ⟨⟨d, h⟩, hd | hd, rfl⟩
    · have := hlh _ hd; simp only at this ⊢; omega
    · have := hrh _ hd; simp only at this ⊢; omega

variable {hashFunc}

/-- Every topological order of the calculation a plan builds yields the same node: the plan's
Merkle hash, at the height of each leaf plus its combine depth.  The evaluation only adds node
facts stored under their own hash, and with an injective `hash_func` it replaces no entry of a
content-addressed `fact_nodes`. -/
theorem fullCalculate_build {plan : CalculationPlan Leaf} {node : MerkleCalculationNode Leaf}
    (hb : plan.build = .ok node) {schedule : List (List Bool)} (hs : node.Schedules schedule)
    (factNodes : NodeFactDict) :
    ∃ factNodes', node.fullCalculate hashFunc schedule factNodes =
        .ok (⟨plan.rootHash hashFunc, node.height⟩, factNodes') ∧
      (∀ dh ∈ plan.leafHeights, node.height = dh.2 + dh.1) ∧
      AddsHashed hashFunc factNodes factNodes' ∧
      (Function.Injective2 hashFunc → DictHashed hashFunc factNodes → Keeps factNodes factNodes') := by
  obtain ⟨hv, hh⟩ := build_ok hashFunc hb
  obtain ⟨d', hcalc, hdict, -⟩ := node.fullCalculate_ok hs factNodes
  exact ⟨d', hv ▸ hcalc, hh, hdict.adds, hdict.keeps⟩

/-- A kept subtree combined with a new order leaf, evaluated right before left, under the
concatenation as `hash_func`. -/
theorem fullCalculate_build_pair :
    ∃ factNodes', (⟨.binary (.constant [1]) (.leafFact OrderState.empty), 1⟩ :
        MerkleCalculationNode OrderState).fullCalculate (fun x y => x ++ y) [[true], [false]]
          (fun _ => none) =
        .ok (⟨(combine (fromNode ⟨[1], 0⟩) (fromFact OrderState.empty)).rootHash
          (fun x y => x ++ y), 1⟩, factNodes') ∧
      (∀ dh ∈ (combine (fromNode ⟨[1], 0⟩) (fromFact OrderState.empty)).leafHeights,
        (1 : Int) = dh.2 + dh.1) ∧
      AddsHashed (fun x y => x ++ y) (fun _ => none) factNodes' ∧
      (Function.Injective2 (fun x y : Bytes => x ++ y) →
        DictHashed (fun x y => x ++ y) (fun _ => none) → Keeps (fun _ => none) factNodes') :=
  fullCalculate_build
    (show (combine (fromNode ⟨[1], 0⟩) (fromFact OrderState.empty)).build = .ok ⟨_, 1⟩ from rfl)
    (by decide) (fun _ => none)

end CalculationPlan

end AvailabilityCommittee
