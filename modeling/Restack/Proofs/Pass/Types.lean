/-
# What typing settles

Climbing hangs nodes higher and leaves them below their roots (`Classes.climb_spec`), and a union
relabels one class (`Classes.Rooted.union`). So locals are in one class just if a chain of copies
joins them (`classesOf_joins`, `classesOf_joined`). Each
round and the defaults behind them give a local a type that depends on its class alone
(`ByClass`), so copies are between locals of one type (`inferTypes_copies`). A class without
other evidence is long just if a wide literal flows into it (`joined_share_type`). Every
literal becomes a constant of the type that its place asks for (`inferTypes_settles`).
-/
import Mathlib.Data.List.Perm.Subperm
import Mathlib.Logic.Relation
import Restack.Proofs.Pass.Marks

namespace Restack.Pass

open List Ir
open Relation (EqvGen)

variable {m : Method} {mark : Mark} {l dst src : Local} {c : Classes}

/-! ## Trees of locals -/

namespace Classes

/-- From `i` the root `r` is `n` nodes away. -/
inductive Ends (c : Classes) : Nat → Nat → Nat → Prop
  | root {r} (inside : r < c.size) (top : c.parent r = r) : Ends c 0 r r
  | step {n i r} (inner : c.parent i ≠ i) (above : Ends c n (c.parent i) r) : Ends c (n + 1) i r

variable {i j r n : Nat}

lemma inside_of_inner (inner : c.parent i ≠ i) : i < c.size := by
  by_contra outside
  exact inner (by simp [parent, Array.getD_eq_getD_getElem?, outside])

@[simp] lemma size_hang (c : Classes) (i up : Nat) : (c.hang i up).size = c.size := by
  simp [hang]

lemma parent_hang (inside : i < c.size) (up j : Nat) :
    (c.hang i up).parent j = if j = i then up else c.parent j := by
  simp only [parent, hang, Array.getD_eq_getD_getElem?, Array.getElem?_setIfInBounds, @eq_comm _ i j]
  by_cases same : j = i
  · subst same
    simp [inside]
  · rw [if_neg same, if_neg same]

namespace Ends

section

variable (ends : c.Ends n i r)

include ends

lemma inside : i < c.size := by
  cases ends with
  | root inside => exact inside
  | step inner => exact inside_of_inner inner

lemma top : c.Ends 0 r r := by
  induction ends with
  | root inside top => exact .root inside top
  | step _ _ ih => exact ih

lemma unique {n' r'} (other : c.Ends n' i r') : n = n' ∧ r = r' := by
  induction ends generalizing n' with
  | root _ top =>
    cases other with
    | root => exact ⟨rfl, rfl⟩
    | step inner => exact absurd top inner
  | step inner _ ih =>
    cases other with
    | root _ top => exact absurd top inner
    | step _ above =>
      obtain ⟨rfl, rfl⟩ := ih above
      exact ⟨rfl, rfl⟩

/-- The nodes on the way up are different, since each is at another height. -/
lemma le_size : n ≤ c.size := by
  obtain ⟨nodes, length, distinct, among⟩ : ∃ nodes : List Nat, nodes.length = n + 1 ∧ nodes.Nodup ∧
      ∀ j ∈ nodes, ∃ k ≤ n, c.Ends k j r := by
    induction ends with
    | @root r inside top => exact ⟨[r], rfl, by simp, by simp [Ends.root inside top]⟩
    | @step n i r inner above ih =>
      obtain ⟨nodes, length, distinct, among⟩ := ih
      refine ⟨i :: nodes, by simp [length], nodup_cons.2 ⟨fun again => ?_, distinct⟩, ?_⟩
      · obtain ⟨k, low, ends⟩ := among i again
        have := (ends.unique (.step inner above)).1
        omega
      · refine forall_mem_cons.2 ⟨⟨_, Nat.le_refl _, .step inner above⟩, fun j mem => ?_⟩
        obtain ⟨k, low, ends⟩ := among j mem
        exact ⟨k, by omega, ends⟩
  have below : nodes ⊆ List.range c.size := fun j mem => by
    obtain ⟨k, -, ends⟩ := among j mem
    exact mem_range.2 ends.inside
  have := (subperm_of_subset distinct below).length_le
  rw [length, length_range] at this
  omega

lemma up : ∃ k ≤ n, c.Ends k (c.parent i) r := by
  cases ends with
  | root inside top => exact ⟨0, Nat.le_refl _, by rw [top]; exact .root inside top⟩
  | step _ above => exact ⟨_, Nat.le_succ _, above⟩

end

/-- Hanging a node one higher leaves every node below its root. -/
lemma halve (inner : c.parent i ≠ i) (ends : c.Ends n j r) :
    ∃ k ≤ n, (c.hang i (c.parent (c.parent i))).Ends k j r := by
  have parents := parent_hang (inside_of_inner inner) (c.parent (c.parent i))
  induction ends with
  | @root r inside top =>
    refine ⟨0, Nat.le_refl _, .root (by simpa using inside) ?_⟩
    rw [parents, if_neg (by rintro rfl; exact inner top), top]
  | @step n j r inner' above ih =>
    obtain ⟨k, low, ends⟩ := ih
    by_cases same : j = i
    · subst same
      obtain ⟨k', low', ends⟩ := ends.up
      rw [parents, if_neg inner] at ends
      refine ⟨k' + 1, by omega, .step ?_ ?_⟩ <;> rw [parents, if_pos rfl]
      · intro loop
        obtain ⟨n', shorter, again⟩ := above.up
        rw [loop] at again
        have := (again.unique (.step inner above)).1
        omega
      · exact ends
    · refine ⟨k + 1, by omega, .step ?_ ?_⟩ <;> rwa [parents, if_neg same]

/-- Hanging a root below another one moves its nodes there. -/
lemma link {a b : Nat} (kept : c.Ends 0 a a) (gone : c.Ends 0 b b) (ne : a ≠ b) (ends : c.Ends n j r) :
    ∃ k, (c.hang b a).Ends k j (if r = b then a else r) := by
  have parents := parent_hang gone.inside a
  induction ends with
  | @root r inside top =>
    cases kept with
    | root inside' top' =>
    have upper : (c.hang b a).Ends 0 a a :=
      .root (by simpa using inside') (by rw [parents, if_neg ne, top'])
    split
    · subst r
      refine ⟨1, .step ?_ ?_⟩ <;> rw [parents, if_pos rfl]
      · exact ne
      · exact upper
    · exact ⟨0, .root (by simpa using inside) (by rw [parents, if_neg ‹_›, top])⟩
  | @step n j r inner above ih =>
    obtain ⟨k, ends⟩ := ih
    have other : j ≠ b := by
      rintro rfl
      cases gone with
      | root _ top => exact inner top
    refine ⟨k + 1, .step ?_ ?_⟩ <;> rwa [parents, if_neg other]

end Ends

/-- From every node there is a way up to a root. -/
def Rooted (c : Classes) : Prop := ∀ i < c.size, ∃ n r, c.Ends n i r

lemma climb_spec {fuel} (ends : c.Ends n i r) (enough : n ≤ fuel) : (climb fuel c i).1 = r ∧
    (climb fuel c i).2.size = c.size ∧
    ∀ {n j r}, c.Ends n j r → ∃ k, (climb fuel c i).2.Ends k j r := by
  induction fuel generalizing c i n with
  | zero =>
    cases ends with
    | root => exact ⟨rfl, rfl, fun ends => ⟨_, ends⟩⟩
    | step => omega
  | succ fuel ih =>
    rw [climb]
    cases ends with
    | root _ top =>
      rw [if_pos top]
      exact ⟨rfl, rfl, fun ends => ⟨_, ends⟩⟩
    | step inner above =>
      rw [if_neg inner]
      obtain ⟨k, low, ends⟩ := above.up
      obtain ⟨k', low', ends⟩ := ends.halve inner
      obtain ⟨root, size, kept⟩ := ih ends (by omega)
      refine ⟨root, size.trans (size_hang ..), fun ends => ?_⟩
      obtain ⟨k, -, ends⟩ := ends.halve inner
      exact kept ends

lemma find_eq (ends : c.Ends n l.index r) : c.find l = r := (climb_spec ends ends.le_size).1

lemma Rooted.ends (rooted : Rooted c) (inside : l.index < c.size) : ∃ n, c.Ends n l.index (c.find l) := by
  obtain ⟨n, r, ends⟩ := rooted _ inside
  exact ⟨n, find_eq ends ▸ ends⟩

/-- The two climbs of a union leave every node below its root. -/
lemma Rooted.union_eq (rooted : Rooted c) {a b : Local} (first : a.index < c.size)
    (second : b.index < c.size) : ∃ c' : Classes, c'.size = c.size ∧
      (∀ {n j r}, c.Ends n j r → ∃ k, c'.Ends k j r) ∧
      c.union a b = if c.find a = c.find b then c' else c'.hang (c.find b) (c.find a) := by
  obtain ⟨n, ends⟩ := rooted.ends first
  obtain ⟨root, size, keeps⟩ := climb_spec ends ends.le_size
  obtain ⟨_, ends'⟩ := rooted.ends second
  obtain ⟨k, ends'⟩ := keeps ends'
  obtain ⟨root', size', keeps'⟩ := climb_spec ends' ends'.le_size
  refine ⟨_, size'.trans size, fun ends => (keeps ends).elim fun _ => keeps', ?_⟩
  unfold Classes.union
  dsimp only
  rw [root, root']

/-- A union hands the nodes of the second class over to the root of the first. -/
lemma Rooted.union (rooted : Rooted c) {a b : Local} (first : a.index < c.size) (second : b.index < c.size) :
    Rooted (c.union a b) ∧ (c.union a b).size = c.size ∧ ∀ l : Local, l.index < c.size →
      (c.union a b).find l = if c.find l = c.find b then c.find a else c.find l := by
  obtain ⟨c', size, keeps, made⟩ := rooted.union_eq first second
  have top {l : Local} (inside : l.index < c.size) : c'.Ends 0 (c.find l) (c.find l) := by
    obtain ⟨n, ends⟩ := rooted.ends inside
    obtain ⟨k, ends⟩ := keeps ends
    exact ends.top
  have joined {l : Local} (inside : l.index < c.size) :
      ∃ k, (c.union a b).Ends k l.index (if c.find l = c.find b then c.find a else c.find l) := by
    obtain ⟨n, ends⟩ := rooted.ends inside
    obtain ⟨k, ends⟩ := keeps ends
    rw [made]
    split
    · rename_i same
      rw [same]
      split
      · rename_i here
        exact ⟨k, here ▸ ends⟩
      · exact ⟨k, ends⟩
    · exact Ends.link (top first) (top second) ‹_› ends
  have sizes : (c.union a b).size = c.size := by
    rw [made]
    split
    · exact size
    · exact (size_hang ..).trans size
  refine ⟨fun i inside => ?_, sizes, fun l inside => ?_⟩
  · obtain ⟨k, ends⟩ := joined (l := ⟨i⟩) (sizes ▸ inside)
    exact ⟨k, _, ends⟩
  · obtain ⟨k, ends⟩ := joined inside
    exact find_eq ends

lemma ends_range (inside : i < n) : Ends (Array.range n) 0 i i :=
  .root (by simpa using inside) (by simp [parent, Array.getD_eq_getD_getElem?, inside])

lemma rooted_range (n : Nat) : Rooted (Array.range n) := fun i inside =>
  ⟨0, i, ends_range (by simpa using inside)⟩

lemma find_range (inside : l.index < n) : find (Array.range n) l = l.index := find_eq (ends_range inside)

end Classes

/-! ## Classes -/

/-- A copy of `b` into `a`, by a statement or a phi. -/
def Copies (m : Method) (a b : Local) : Prop := (a, .var b) ∈ flows m

/-- Every local that a copy mentions has a type. -/
def Numbered (m : Method) : Prop :=
  ∀ p ∈ flows m, p.1.index < m.locals.size ∧ ∀ src, p.2 = .var src → src.index < m.locals.size

/-- Unions along copies join the locals of each and part none. -/
lemma foldl_join {pairs : List (Local × Value)} (numbered : Numbered m) (among : pairs ⊆ flows m)
    (rooted : c.Rooted) (size : c.size = m.locals.size) (first : dst.index < m.locals.size)
    (second : src.index < m.locals.size) (joined : (dst, .var src) ∈ pairs ∨ c.find dst = c.find src) :
    Classes.find (pairs.foldl Classes.join c) dst = Classes.find (pairs.foldl Classes.join c) src := by
  induction pairs generalizing c with
  | nil => exact joined.resolve_left (by simp)
  | cons p pairs ih =>
    obtain ⟨head, rest⟩ := cons_subset.1 among
    obtain ⟨a, v⟩ := p
    cases v with
    | const =>
      refine ih rest rooted size (joined.imp_left fun here => ?_)
      exact (mem_cons.1 here).resolve_left (by simp)
    | var b =>
      obtain ⟨small, small'⟩ := numbered _ head
      obtain ⟨rooted', size', finds⟩ := rooted.union (size ▸ small) (size ▸ small' b rfl)
      rw [size] at finds
      refine ih rest rooted' (size'.trans size) ?_
      rcases joined with here | same
      · rcases mem_cons.1 here with same | later
        · cases same
          right
          change (c.union dst src).find dst = (c.union dst src).find src
          rw [finds dst first, finds src second, if_pos rfl]
          split <;> rfl
        · exact .inl later
      · right
        change (c.union a b).find dst = (c.union a b).find src
        rw [finds dst first, finds src second, same]

/-- The locals of every copy are in one class. -/
lemma classesOf_joins (numbered : Numbered m) (mem : Copies m dst src) :
    (classesOf m).find dst = (classesOf m).find src :=
  foldl_join numbered (Subset.refl _) (Classes.rooted_range _) Array.size_range (numbered _ mem).1
    ((numbered _ mem).2 src rfl) (.inl mem)

/-- Locals of one class are joined by copies. -/
lemma classesOf_joined (numbered : Numbered m) {a b} (first : a.index < m.locals.size)
    (second : b.index < m.locals.size) (same : (classesOf m).find a = (classesOf m).find b) :
    EqvGen (Copies m) a b := by
  refine (foldlRecOn (motive := fun c : Classes => c.Rooted ∧ c.size = m.locals.size ∧ ∀ x y : Local,
    x.index < m.locals.size → y.index < m.locals.size → c.find x = c.find y → EqvGen (Copies m) x y)
    (flows m) _ ⟨Classes.rooted_range _, Array.size_range, fun x y small small' same => ?_⟩ fun c kept p mem => ?_).2.2
      a b first second same
  · rw [Classes.find_range small, Classes.find_range small'] at same
    obtain ⟨i⟩ := x
    cases same
    exact .refl _
  obtain ⟨rooted, size, joined⟩ := kept
  obtain ⟨a, _ | b⟩ := p
  · rename_i b
    obtain ⟨small, small'⟩ := numbered _ mem
    have inside' := small' b rfl
    have copy : EqvGen (Copies m) a b := .rel a b mem
    obtain ⟨rooted', size', finds⟩ := rooted.union (size ▸ small) (size ▸ inside')
    refine ⟨rooted', size'.trans size, fun x y inside other same => ?_⟩
    change (c.union a b).find x = (c.union a b).find y at same
    rw [finds x (size ▸ inside), finds y (size ▸ other)] at same
    split at same <;> rename_i here <;> split at same <;> rename_i there
    · exact joined x y inside other (here.trans there.symm)
    · exact (joined x b inside inside' here).trans _ _ _ (copy.symm.trans _ _ _ (joined a y small other same))
    · exact (joined x a inside small same).trans _ _ _ (copy.trans _ _ _ (joined b y inside' other there.symm))
    · exact joined x y inside other same
  · exact ⟨rooted, size, joined⟩

/-- Locals of one class have one type. -/
def ByClass (c : Classes) (m : Method) : Prop :=
  ∀ a b : Local, a.index < m.locals.size → b.index < m.locals.size → c.find a = c.find b →
    m.localType a = m.localType b

lemma localType_mapIdx {locals} (same : m.locals = locals) {g} (inside : l.index < locals.size) :
    Method.localType { m with locals := locals.mapIdx g } l = g l.index (m.localType l) := by
  subst same
  simp [Method.localType, Array.getD_eq_getD_getElem?, inside]

lemma assignTypes_byClass (c : Classes) (types : Array Ty) : ByClass c (assignTypes c types m) := by
  intro a b first second same
  have sizes := (assignTypes_retyped (m := m) c types).size
  rw [sizes] at first second
  rw [assignTypes, localType_mapIdx rfl first, localType_mapIdx rfl second, same]

lemma inferRounds_byClass {fuel types} : ByClass c (inferRounds c (fuel + 1) types m) := by
  induction fuel generalizing m types with
  | zero =>
    rw [inferRounds]
    split
    · exact assignTypes_byClass c _
    · exact assignTypes_byClass c _
  | succ fuel ih =>
    rw [inferRounds]
    split
    · exact assignTypes_byClass c _
    · exact ih

lemma withDefaults_byClass (known : ByClass c m) : ByClass c (withDefaults c m) := by
  intro a b first second same
  have sizes := (withDefaults_retyped (m := m) c).size
  rw [sizes] at first second
  rw [withDefaults, localType_mapIdx rfl first, localType_mapIdx rfl second, same,
    known a b first second same]

lemma typedValue_var {v expected} (same : typedValue v expected = .var src) : v = .var src := by
  unfold typedValue at same
  split at same
  · cases same
  · exact same

def isValue : Expr → Bool
  | .value _ => true
  | _ => false

lemma isValue_withValues (e : Expr) (vs : List Value) : isValue (e.withValues vs) = isValue e := by
  unfold Expr.withValues
  split <;> rfl

lemma withValues_value {s : Stmt} {vs v}
    (made : s.withValues vs = .assign dst (.value v)) : ∃ w, s = .assign dst (.value w) := by
  have defines : s.def? = some dst := by
    rw [← Stmt.def?_withValues s vs, made]
    rfl
  cases s with
  | assign dst' e =>
    cases defines
    have kind := isValue_withValues e vs
    rw [(Stmt.assign.inj made).2] at kind
    cases e with
    | value w => exact ⟨w, rfl⟩
    | _ => cases kind
  | _ => cases defines

/-! ## Operands -/

/-- A statement with its literals typed. -/
def typedStmt (m : Method) : Stmt → Stmt
  | .assign dst (.value v) => .assign dst (.value (typedValue v (some (m.localType dst))))
  | s => s.withValues (s.values.zipWith typedValue (m.stmtExpectations s))

def typedBlock (m : Method) (block : Block) : Block where
  phis := block.phis.map fun p => p.mapValues (typedValue · (some (m.localType p.dst)))
  stmts := block.stmts.map (typedStmt m)
  terminator := block.terminator.withValues
    (block.terminator.values.zipWith typedValue (m.terminatorExpectations block.terminator))

lemma typedLiteral_isKnown (bits : Int64) (wide : Bool) (expected : Option Ty) :
    (typedLiteral bits wide expected).ty.isKnown = true := by
  unfold typedLiteral
  split <;> repeat' split
  all_goals rfl

/-- A typed operand is left alone. -/
lemma typedValue_typedValue (v : Value) (expected : Option Ty) :
    typedValue (typedValue v expected) none = typedValue v expected := by
  cases v with
  | var l => rfl
  | const c =>
    cases c with
    | literal bits wide =>
      have known := typedLiteral_isKnown bits wide expected
      change typedValue (.const (typedLiteral bits wide expected)) none = .const (typedLiteral bits wide expected)
      cases made : typedLiteral bits wide expected <;> first | rfl | (rw [made] at known; cases known)
    | _ => rfl

lemma block?_typed (n : Method) (b : BlockId) :
    ((typeFlows n).mapTypedUses typedValue).block? b = (n.block? b).map (typedBlock n) := by
  rw [Method.mapTypedUses, Method.block?_mapBlocks, typeFlows, Method.block?_mapBlocks, Option.map_map]
  refine Option.map_congr fun block _ => ?_
  simp only [Function.comp, map_map]
  congr 2
  funext s
  simp only [Function.comp]
  split
  · rename_i dst v
    exact congrArg (fun v => Stmt.assign dst (.value v)) (typedValue_typedValue v _)
  · rename_i other
    rw [typedStmt]
    · rfl
    · exact other

lemma inferTypes_block? (b : BlockId) : (inferTypes m).1.block? b =
    (m.block? b).map (typedBlock { m with locals := (inferTypes m).1.locals }) := by
  rw [inferTypes_fst, block?_typed]
  have same := (withTypes_retyped (m := m)).same
  generalize withTypes m = n at same
  rw [same]
  rfl

lemma typedStmt_copy {s} (made : typedStmt m s = .assign dst (.value (.var src))) :
    s = .assign dst (.value (.var src)) := by
  unfold typedStmt at made
  split at made
  · obtain ⟨rfl, value⟩ := Stmt.assign.inj made
    rw [typedValue_var (Expr.value.inj value)]
  · rename_i other
    obtain ⟨w, rfl⟩ := withValues_value made
    cases other _ _ rfl

lemma inferTypes_flow {b block} (here : (inferTypes m).1.block? b = some block)
    (mem : .assign dst (.value (.var src)) ∈ block.stmts) : (dst, .var src) ∈ flows m := by
  rw [inferTypes_block?] at here
  obtain ⟨old, found, rfl⟩ := Option.map_eq_some_iff.1 here
  obtain ⟨s, among, made⟩ := mem_map.1 mem
  refine mem_flatMap.2 ⟨old, Method.mem_blockList.2 ⟨b, found⟩, mem_append_right _ ?_⟩
  exact mem_filterMap.2 ⟨s, among, by rw [typedStmt_copy made]⟩

lemma Numbered.of_marked (marked : m.Marked mark) : Numbered m := by
  intro p flow
  obtain ⟨b, block, here, inside⟩ := Method.exists_mem_blockList.1 (mem_flatMap.1 flow)
  have old := marked.blocks b block here
  rcases mem_append.1 inside with phi | stmt
  · obtain ⟨q, among, made⟩ := mem_flatMap.1 phi
    obtain ⟨o, operand, rfl⟩ := mem_map.1 made
    exact ⟨(old.phis q among).dst, (old.phis q among).reads o operand⟩
  · obtain ⟨s, among, made⟩ := mem_filterMap.1 stmt
    split at made
    · cases made
      have := old.stmts _ among
      exact ⟨(this.defines _ rfl).1, this.reads _ mem_cons_self⟩
    · cases made

lemma withTypes_byClass : ByClass (classesOf m) (withTypes m) := withDefaults_byClass inferRounds_byClass

lemma inferTypes_locals : (inferTypes m).1.locals = (withTypes m).locals := by
  rw [inferTypes_fst]
  generalize withTypes m = n
  rfl

lemma inferTypes_localType (l : Local) : (inferTypes m).1.localType l = (withTypes m).localType l := by
  rw [Method.localType, inferTypes_locals, Method.localType]

/-- What the two locals of every copy share, all locals share that copies join. -/
lemma eq_of_joined {α : Type} {f : Local → α} (shared : ∀ a b, Copies m a b → f a = f b) {a b}
    (joined : EqvGen (Copies m) a b) : f a = f b := by
  induction joined with
  | rel a b copy => exact shared a b copy
  | refl a => rfl
  | symm a b _ ih => exact ih.symm
  | trans a b c _ _ first second => exact first.trans second

lemma localType_of_joined (numbered : Numbered m) {a b} (joined : EqvGen (Copies m) a b) :
    (inferTypes m).1.localType a = (inferTypes m).1.localType b := by
  refine eq_of_joined (fun a b copy => ?_) joined
  have size := (withTypes_retyped (m := m)).size
  obtain ⟨inside, inside'⟩ := numbered _ copy
  rw [inferTypes_localType, inferTypes_localType]
  exact withTypes_byClass a b (size ▸ inside) (size ▸ inside' b rfl) (classesOf_joins numbered copy)

lemma inferTypes_copies (marked : m.Marked mark) {b block} (here : (inferTypes m).1.block? b = some block)
    (mem : .assign dst (.value (.var src)) ∈ block.stmts) :
    (inferTypes m).1.localType dst = (inferTypes m).1.localType src :=
  localType_of_joined (.of_marked marked) (.rel _ _ (inferTypes_flow here mem))

/-! ## Defaults -/

/-- The method with the types that definitions and uses give; others are unknown. -/
def withEvidence (m : Method) : Method :=
  inferRounds (classesOf m) 8 (Array.replicate m.locals.size .unknown) m

/-- A wide literal flows into a local that copies join with `a`. -/
def Widened (m : Method) (a : Local) : Prop :=
  ∃ l bits, EqvGen (Copies m) a l ∧ (l, .literal bits true) ∈ flows m

lemma mem_wideClasses {k} :
    k ∈ wideClasses m c ↔ ∃ l bits, (l, .literal bits true) ∈ flows m ∧ c.find l = k := by
  constructor
  · intro mem
    obtain ⟨p, flow, made⟩ := mem_filterMap.1 mem
    split at made
    · cases made
      exact ⟨_, _, flow, rfl⟩
    · cases made
  · rintro ⟨l, bits, flow, rfl⟩
    exact mem_filterMap.2 ⟨_, flow, rfl⟩

lemma withTypes_localType (inside : l.index < m.locals.size) : (withTypes m).localType l =
    if ((withEvidence m).localType l).isKnown then (withEvidence m).localType l
    else if (wideClasses m (classesOf m)).contains ((classesOf m).find l) then .long else .int := by
  have typed : Retyped m (withEvidence m) := inferRounds_retyped _ _ _
  have flow : wideClasses (withEvidence m) (classesOf m) = wideClasses m (classesOf m) := by
    rw [typed.same]
    rfl
  rw [← flow]
  rw [← typed.size] at inside
  exact localType_mapIdx rfl inside

lemma contains_wideClasses (numbered : Numbered m) (inside : l.index < m.locals.size) :
    (wideClasses m (classesOf m)).contains ((classesOf m).find l) = true ↔ Widened m l := by
  rw [contains_iff_mem, mem_wideClasses]
  constructor
  · rintro ⟨k, bits, flow, same⟩
    exact ⟨k, bits, classesOf_joined numbered inside (numbered _ flow).1 same.symm, flow⟩
  · rintro ⟨k, bits, joined, flow⟩
    exact ⟨k, bits, flow, (eq_of_joined (fun _ _ copy => classesOf_joins numbered copy) joined).symm⟩

/-- Locals that copies join, in whatever direction and through however many others, have one type. It
is the one that definitions and uses give, and where they give none it is long if a wide literal flows
into any of them and int if not. -/
theorem joined_share_type (numbered : Numbered m) {a b : Local} (joined : EqvGen (Copies m) a b)
    (inside : a.index < m.locals.size) :
    (inferTypes m).1.localType a = (inferTypes m).1.localType b ∧
      (((withEvidence m).localType a).isKnown = true →
        (inferTypes m).1.localType a = (withEvidence m).localType a) ∧
      ((withEvidence m).localType a = .unknown → Widened m a ∧ (inferTypes m).1.localType a = .long ∨
          ¬ Widened m a ∧ (inferTypes m).1.localType a = .int) := by
  refine ⟨localType_of_joined numbered joined, fun known => ?_, fun unknown => ?_⟩
  · rw [inferTypes_localType, withTypes_localType inside, if_pos known]
  · rw [inferTypes_localType, withTypes_localType inside, unknown, if_neg (by decide)]
    by_cases wide : Widened m a
    · rw [if_pos ((contains_wideClasses numbered inside).2 wide)]
      exact .inl ⟨wide, rfl⟩
    · rw [if_neg (mt (contains_wideClasses numbered inside).1 wide)]
      exact .inr ⟨wide, rfl⟩

/-- A loop that hands a wide literal through two variables. -/
def handedOn : Method where
  owner := "LHandedOn;"
  name := "turn"
  descriptor := "()V"
  isStatic := true
  params := #[]
  returnType := "V"
  blocks := #[some ⟨[], [.assign ⟨0⟩ (.value (.literal 7 true))], .goto ⟨1⟩⟩,
    some ⟨[⟨⟨1⟩, [(⟨0⟩, .var ⟨0⟩), (⟨1⟩, .var ⟨2⟩)]⟩], [.assign ⟨2⟩ (.value (.var ⟨1⟩))], .goto ⟨1⟩⟩]
  layout := [⟨0⟩, ⟨1⟩]
  entry := ⟨0⟩
  traps := []
  locals := Array.replicate 3 .unknown

theorem handedOn_long : Numbered handedOn ∧ EqvGen (Copies handedOn) ⟨2⟩ ⟨0⟩ ∧
    (withEvidence handedOn).localType ⟨2⟩ = .unknown ∧
    (inferTypes handedOn).1.localType ⟨2⟩ = .long ∧ (inferTypes handedOn).1.localType ⟨0⟩ = .long := by
  have flow : flows handedOn = [(⟨0⟩, .literal 7 true), (⟨1⟩, .var ⟨0⟩), (⟨1⟩, .var ⟨2⟩), (⟨2⟩, .var ⟨1⟩)] := rfl
  have numbered : Numbered handedOn := by
    rw [Numbered, flow]
    simp [handedOn, Value.literal]
  have joined : EqvGen (Copies handedOn) ⟨2⟩ ⟨0⟩ :=
    .trans _ ⟨1⟩ _ (.rel _ _ (by simp [Copies, flow])) (.rel _ _ (by simp [Copies, flow]))
  have unknown : (withEvidence handedOn).localType ⟨2⟩ = .unknown := by decide +kernel
  obtain ⟨same, -, default⟩ := joined_share_type numbered joined (by decide)
  have wide : Widened handedOn ⟨2⟩ := ⟨_, 7, joined, by simp [flow]⟩
  have long := (default unknown).elim (·.2) fun narrow => absurd wide narrow.1
  exact ⟨numbered, joined, unknown, long, same ▸ long⟩

/-! ## Literals -/

/-- A constant has the bits of a literal, cut to its size. -/
def Carries (bits : Int64) : Constant → Prop
  | .int v => v = bits.toInt32
  | .long v => v = bits
  | .float b => b = bits.toUInt64.toUInt32
  | .double b => b = bits.toUInt64
  | .null => bits = 0
  | _ => False

/-- What stands for an operand where a type is expected: for a literal a constant of the kind of that
type with the same bits, unless a reference is expected and the literal is not zero, and else the
operand itself. -/
def Settles (expected : Option Ty) : Value → Value → Prop
  | .const (.literal bits _), v => ∃ c, v = .const c ∧ c.ty ≠ .unknown ∧ ∀ t, expected = some t →
      t ≠ .unknown → t.isRef = true ∧ bits ≠ 0 ∨
        Carries bits c ∧ (c.ty = t ∨ c.ty.isRef = true ∧ t.isRef = true)
  | v, v' => v' = v

lemma typedValue_settles (v : Value) (expected : Option Ty) : Settles expected v (typedValue v expected) := by
  cases v with
  | var l => rfl
  | const c =>
    cases c with
    | literal bits wide =>
      refine ⟨_, rfl, fun none => ?_, fun t wanted known => ?_⟩
      · have known := typedLiteral_isKnown bits wide expected
        rw [none] at known
        cases known
      · subst wanted
        cases t with
        | unknown => exact absurd rfl known
        | ref d =>
          by_cases zero : bits = 0
          · subst zero
            exact .inr ⟨rfl, .inr ⟨rfl, rfl⟩⟩
          · exact .inl ⟨rfl, zero⟩
        | _ => exact .inr ⟨rfl, .inl rfl⟩
    | _ => rfl

lemma Settles.ne_literal {expected v v'} (settles : Settles expected v v')
    (bits : Int64) (wide : Bool) : v' ≠ .literal bits wide := by
  rintro rfl
  unfold Settles at settles
  split at settles
  · obtain ⟨c, same, known, -⟩ := settles
    cases same
    exact known rfl
  · rename_i other
    exact other bits wide settles.symm

/-- What is expected of the operands of a statement; a plain assignment takes the type of its
destination. -/
def slotTypes (m : Method) : Stmt → List (Option Ty)
  | .assign dst (.value _) => [some (m.localType dst)]
  | s => m.stmtExpectations s

/-- Operands settled one by one. -/
def SettlesAll (expected : List (Option Ty)) (vs vs' : List Value) : Prop :=
  expected.length = vs.length ∧ Forall₂ (fun slot v' => Settles slot.1 slot.2 v') (expected.zip vs) vs'

/-- A block whose literals took the types that the locals of `m` give. -/
structure SettledBlock (m : Method) (block block' : Block) : Prop where
  phis : Forall₂ (fun p p' => p'.dst = p.dst ∧ Forall₂ (fun o o' => o'.1 = o.1 ∧
    Settles (some (m.localType p.dst)) o.2 o'.2) p.operands p'.operands) block.phis block'.phis
  stmts : Forall₂ (fun s s' => ∃ vs, s' = s.withValues vs ∧ SettlesAll (slotTypes m s) s.values vs)
    block.stmts block'.stmts
  terminator : ∃ vs, block'.terminator = block.terminator.withValues vs ∧
    SettlesAll (m.terminatorExpectations block.terminator) block.terminator.values vs

lemma zipWith_settles {expected vs}
    (length : expected.length = vs.length) : SettlesAll expected vs (vs.zipWith typedValue expected) := by
  refine ⟨length, ?_⟩
  rw [zipWith_comm, ← map_uncurry_zip_eq_zipWith, forall₂_map_right_iff, forall₂_same]
  exact fun slot _ => typedValue_settles slot.2 slot.1

lemma SettlesAll.ne_literal {expected vs vs'}
    (settles : SettlesAll expected vs vs') {v} (mem : v ∈ vs') (bits : Int64) (wide : Bool) :
    v ≠ .literal bits wide := by
  obtain ⟨slot, -, settled⟩ := Lists.forall₂_mem_right settles.2 mem
  exact settled.ne_literal bits wide

lemma SettlesAll.length {expected vs vs'}
    (settles : SettlesAll expected vs vs') : vs'.length = vs.length := by
  rw [← settles.2.length_eq, length_zip, settles.1, Nat.min_self]

lemma typedBlock_settled (m : Method) (block : Block) : SettledBlock m block (typedBlock m block) where
  phis := by
    refine forall₂_map_right_iff.2 (forall₂_same.2 fun p _ => ⟨rfl, ?_⟩)
    exact forall₂_map_right_iff.2 (forall₂_same.2 fun o _ => ⟨rfl, typedValue_settles o.2 _⟩)
  stmts := by
    refine forall₂_map_right_iff.2 (forall₂_same.2 fun s _ => ?_)
    unfold typedStmt slotTypes
    split
    · rename_i dst v _
      exact ⟨[_], rfl, rfl, .cons (typedValue_settles v _) .nil⟩
    · exact ⟨_, rfl, zipWith_settles (stmtExpectations_length _)⟩
  terminator := ⟨_, rfl, zipWith_settles (terminatorExpectations_length _)⟩

/-- No raw literal is left among the operands of a settled block. -/
lemma SettledBlock.ne_literal {block block'} (settled : SettledBlock m block block') {v}
    (mem : v ∈ (block'.phis.flatMap fun p => p.operands.map (·.2)) ++ block'.stmts.flatMap Stmt.values ++
      block'.terminator.values) (bits : Int64) (wide : Bool) : v ≠ .literal bits wide := by
  rcases mem_append.1 mem with mem | last
  · rcases mem_append.1 mem with merged | used
    · obtain ⟨p', among, inside⟩ := mem_flatMap.1 merged
      obtain ⟨o', operand, rfl⟩ := mem_map.1 inside
      obtain ⟨p, -, -, operands⟩ := Lists.forall₂_mem_right settled.phis among
      obtain ⟨o, -, -, settles⟩ := Lists.forall₂_mem_right operands operand
      exact settles.ne_literal bits wide
    · obtain ⟨s', among, inside⟩ := mem_flatMap.1 used
      obtain ⟨s, -, vs, rfl, settles⟩ := Lists.forall₂_mem_right settled.stmts among
      rw [Stmt.values_withValues s settles.length] at inside
      exact settles.ne_literal inside bits wide
  · obtain ⟨vs, same, settles⟩ := settled.terminator
    rw [same, Terminator.values_withValues _ settles.length] at last
    exact settles.ne_literal last bits wide

/-- Every local has a type in the end and no operand is a raw literal; each literal became a constant of
the type that its place expects of it, as far as that is known, with the bits that it had. -/
theorem inferTypes_settles (m : Method) :
    (∀ t ∈ (inferTypes m).1.locals, t ≠ .unknown) ∧
      (∀ v ∈ (inferTypes m).1.operands, ∀ bits wide, v ≠ .literal bits wide) ∧
      ∀ b, Option.Rel (SettledBlock { m with locals := (inferTypes m).1.locals }) (m.block? b)
        ((inferTypes m).1.block? b) := by
  have settled (b : BlockId) : Option.Rel (SettledBlock { m with locals := (inferTypes m).1.locals })
      (m.block? b) ((inferTypes m).1.block? b) := by
    rw [inferTypes_block?]
    cases m.block? b with
    | none => exact .none
    | some block => exact .some (typedBlock_settled _ block)
  refine ⟨fun t member => ?_, fun v member => ?_, settled⟩
  · obtain ⟨i, inside, rfl⟩ := Array.mem_iff_getElem.1 member
    have typed : (inferTypes m).1.localType ⟨i⟩ = (inferTypes m).1.locals[i] := by
      rw [Method.localType, Array.getD_eq_getD_getElem?, Array.getElem?_eq_getElem inside]
      rfl
    rw [inferTypes_locals, withTypes_retyped.size] at inside
    rw [← typed, inferTypes_localType, withTypes_localType inside]
    repeat' split
    · rename_i known
      intro none
      rw [none] at known
      cases known
    all_goals nofun
  · obtain ⟨b, block', here, inside⟩ := Method.exists_mem_blockList.1 (mem_flatMap.1 member)
    have related := settled b
    rw [here] at related
    generalize m.block? b = old at related
    obtain settled | _ := related
    exact settled.ne_literal inside

end Restack.Pass
