/-
# Where the statements of a lifted method come from

Every statement of a lifted method reads a parameter, or is what an instruction of the body
does (`lift_each`). The first block alone reads parameters, each into a local that nothing else
defines, and the tables hold nothing but constants and locals handed out (`lift_marked`).
-/
import Restack.Proofs.Lifting.Form
import Restack.Proofs.Pass.Shape

namespace Restack.Lifting

open Ir (BlockId Value Local Mark Stmt Expr Terminator Block Phi defined)
open List Outcome
open Register (Code Instruction Reg)

/-- The statements that an action can become have a property. -/
def Action.Has (P : Stmt → Prop) : Action → Prop
  | .define _ e => ∀ l, P (.assign l e)
  | .call e => P (.effect e) ∧ ∀ l, P (.assign l e)
  | .perform s => P s
  | .skip | .takeResult _ | .finish _ => True

/-- Whatever an instruction does, in any block and with any operands, has a property. -/
def Brings (P : Stmt → Prop) (i : Instruction) : Prop :=
  ∀ o stop vs a, Does o stop i vs a → a.Has P

variable {P : Stmt → Prop} {o : Outline}

lemma Line.has {span known pos last i writes writes' result result' filling} (brings : Brings P i)
    (line : Line o span known pos last i writes result filling writes' result') :
    ∀ s ∈ filling.stmts, P s := by
  cases line with
  | define _ _ does | defer _ _ does => exact forall_mem_singleton.2 (brings _ _ _ _ does _)
  | keep _ _ does => exact forall_mem_singleton.2 ((brings _ _ _ _ does).2 _)
  | drop _ _ does => exact forall_mem_singleton.2 (brings _ _ _ _ does).1
  | perform _ _ does => exact forall_mem_singleton.2 (brings _ _ _ _ does)
  | take => simp [Filling.empty]
  | finish => simp

lemma Lines.has {span known pos is writes writes' result result' filling}
    (lines : Lines o span known pos is writes result filling writes' result')
    (brings : ∀ i ∈ is, Brings P i) : ∀ s ∈ filling.stmts, P s := by
  induction lines with
  | nil => simp [Filling.empty]
  | cons first _ ih =>
    obtain ⟨here, later⟩ := forall_mem_cons.1 brings
    exact forall_mem_append.2 ⟨first.has here, ih later⟩

lemma separate_sublist (is : List Instruction) (pos : Nat) : (separate is pos).1.Sublist is := by
  fun_induction separate is pos with
  | case1 => exact .slnil
  | case2 pos label rest kept labels same ih =>
    rw [same] at ih
    exact ih.cons _
  | case3 pos rest ih => exact ih.cons _
  | case4 pos i rest _ _ kept labels same ih =>
    rw [same] at ih
    exact ih.cons_cons _

variable {method : Register.Method} {code : Code} {order : ClosingOrder} {m : Ir.Method}

lemma placePhis_head (s : Registers) (m : Ir.Method) : (placePhis s m).head = m.head := by
  refine foldlRecOn (motive := fun n : Ir.Method => n.head = m.head) s.merges _ rfl
    fun n old _ _ => ?_
  exact old

lemma lift_head {signature} (lifted : lift method code order = .ok m)
    (parsed : Signature.methodDescriptor method.ref.descriptor = .ok signature) :
    m.head = (method.ref.owner, (parameters method signature).toArray) := by
  obtain ⟨signature', parsed', lifted⟩ := bind_ok.1 lifted
  obtain rfl : signature' = signature := Except.ok.inj (parsed'.symm.trans parsed)
  obtain ⟨o, -, lifted⟩ := bind_ok.1 lifted
  obtain ⟨p, -, lifted⟩ := bind_ok.1 lifted
  obtain ⟨q, -, lifted⟩ := bind_ok.1 lifted
  cases lifted
  rw [(Ir.Method.SameShape.substitute _).head, placePhis_head]
  rfl

/-- The statements of a lifted method are what its instructions do, behind its parameters. -/
lemma lift_each (lifted : lift method code order = .ok m)
    (params : ∀ l i, i < m.params.size → P (.assign l (.param i)))
    (brings : ∀ i ∈ code.instructions, Brings P i) : m.Each P := by
  obtain ⟨signature, o, ranges, starts, f, ls, defs, parsed, -, drawn, rendering⟩ :=
    lift_rendering lifted
  intro b block here
  rcases rendering.block_cases drawn here with ⟨-, rfl⟩ | ⟨span, among, rfl⟩ |
      ⟨-, -, -, _, -, rfl⟩
  · intro s mem
    obtain ⟨⟨l, i⟩, numbered, rfl⟩ := mem_map.1 mem
    have small : i < ls.length := by simpa using snd_lt_of_mem_zipIdx numbered
    rw [rendering.count] at small
    have given : m.params = _ := congrArg Prod.snd (lift_head lifted parsed)
    refine params l i ?_
    rw [given]
    exact small
  · obtain ⟨result, all⟩ := rendering.spans
    obtain ⟨_, filling, t, _, rendered, -⟩ := all.span among
    have shown := rendering.block_of_body rendered.block
    rw [here] at shown
    cases shown
    refine rendered.lines.has fun i inside => brings i ?_
    have kept : i ∈ o.instructions.toList := by
      rw [Outline.spanInstructions, Array.toList_extract] at inside
      exact mem_of_mem_drop (mem_of_mem_take inside)
    exact (separate_sublist code.instructions 0).mem (by rw [drawn.separated]; exact kept)
  · simp

/-- The parameters that the first block reads into some locals. -/
def paramMark (ls : List Local) : Mark := ⟨fun l => ls.zipIdx.lookup l, fun _ => True⟩

lemma paramMark_of_mem {ls} (distinct : ls.Nodup) {l i}
    (mem : (l, i) ∈ ls.zipIdx) : (paramMark ls).param l = some i :=
  (Lookup.lookup_eq_some_iff_mem (by simpa using distinct)).2 mem

lemma paramMark_of_not_mem {ls l} (outside : l ∉ ls) : (paramMark ls).param l = none :=
  Lookup.lookup_eq_none.2 (by simpa using outside)

section Marked

variable {ranges : List (Nat × Nat)} {starts : List Nat} (drawn : Drawn code o ranges starts)
  {f : Registers} {params : List String} {ls defs : List Local}
  (rendering : Rendering code o f params ls defs m)

include rendering

lemma Rendering.known_bound {b r l} (held : f.known b r = some (.var l)) : l.index < f.locals := by
  obtain ⟨v, found, same⟩ := Option.map_eq_some_iff.1 held
  exact rendering.good.entered_bound b r v found l same

lemma Rendering.phi_marked {b block p} (here : m.block? b = some block)
    (merged : p ∈ block.phis) : p.Marked f.locals (paramMark ls) := by
  rw [rendering.phis _ _ here] at merged
  obtain ⟨merge, made, -, operands⟩ := (mem_phisOf rendering.good).1 merged
  refine ⟨rendering.good.bound _ _ made, paramMark_of_not_mem fun among => ?_, fun e mem => ?_⟩
  · have plain := rendering.plain p.dst (mem_append_left _ among)
    rw [plain.unmerged] at made
    cases made
  · rw [operands] at mem
    obtain ⟨⟨q, w⟩, among, rfl⟩ := mem_map.1 mem
    exact rendering.good.agrees_bound ((rendering.good.merged _ _ made).operands q w among).2.2

include drawn

/-- A span reads what was handed out, also where the result that it takes up is not that of the
block that control comes from. -/
lemma Rendering.span_marked {span} (mem : span ∈ o.spans) {block} (here : m.block? span.id = some block) :
    (∀ s ∈ block.stmts, s.Marked f.locals (paramMark ls)) ∧
      ∀ v ∈ block.terminator.values, v.Below f.locals := by
  obtain ⟨result, all⟩ := rendering.spans
  obtain ⟨before, filling, t, behind, rendered, from_⟩ := all.handed drawn.spans_chain mem
  cases here.symm.trans (rendering.block_of_body rendered.block)
  have below {l : Local} {b : BlockId} {block : Block} (there : m.block? b = some block)
      (made : l ∈ defined block.stmts) : l.index < f.locals :=
    rendering.fresh.below l (rendering.defined_mem drawn there made)
  let handed := (range f.locals).map Local.mk
  have mem_handed {l : Local} : l ∈ handed ↔ l.index < f.locals := by
    refine mem_map.trans ⟨?_, fun small => ⟨_, mem_range.2 small, rfl⟩⟩
    rintro ⟨i, small, rfl⟩
    exact mem_range.1 small
  have among : Among handed (f.known span.id) [] before := by
    refine ⟨fun r l held => mem_handed.2 (rendering.known_bound held), by simp, fun l same => ?_⟩
    subst same
    rcases from_ with ⟨-, absurd_⟩ | ⟨prev, prev_among, -, _, filling', t', rendered'⟩
    · cases absurd_
    · have there := rendering.block_of_body rendered'.block
      exact mem_handed.2 (below there (rendered'.leaves_result drawn prev_among).1)
  obtain ⟨stmts, ending, -⟩ := rendered.lines.among among
  refine ⟨fun s inside => ⟨fun dst defines => ?_, fun v read l same => ?_, trivial⟩,
    fun v read l same => ?_⟩
  · have made : dst ∈ defined filling.stmts := mem_filterMap.2 ⟨s, inside, defines⟩
    have unread : s.param? = none := by
      refine rendered.lines.has (P := fun s => s.param? = none) (fun i _ o stop vs a does => ?_) s inside
      cases does <;> simp [Action.Has, Stmt.param?]
    refine ⟨below here made, (paramMark_of_not_mem fun among => ?_).trans unread.symm⟩
    refine (drawn.span_inner mem mem_cons_self).1 (rendering.defs_apart drawn here
      (rendering.entry_block drawn) (mem_append_right _ made) (mem_append_right _ ?_))
    rwa [defined_paramStmts]
  · subst same
    obtain ⟨front, rest, split⟩ := append_of_mem inside
    rcases mem_append.1 (stmts _ _ _ split l read) with made | old
    · refine below here ?_
      rw [split, Ir.defined_append]
      exact mem_append_left _ made
    · exact mem_handed.1 old
  · subst same
    have ends := rendered.ends
    generalize own : filling.terminator = own' at ends
    cases ends with
    | own =>
      rcases mem_append.1 (ending t own l read) with made | old
      · exact below here made
      · exact mem_handed.1 old
    | land => cases read
    | fall => cases read

end Marked

lemma lift_marked (lifted : lift method code order = .ok m) : ∃ param, m.Marked ⟨param, fun _ => True⟩ := by
  obtain ⟨signature, o, ranges, starts, f, ls, defs, -, -, drawn, rendering⟩ := lift_rendering lifted
  have distinct := rendering.fresh_nodup
  refine ⟨(paramMark ls).param, fun l marked => ?_, fun b block here => ?_⟩
  · rw [rendering.locals]
    refine rendering.fresh.below l (mem_append_left _ ?_)
    by_contra outside
    rw [paramMark_of_not_mem outside] at marked
    cases marked
  rw [rendering.locals]
  have body : (∀ s ∈ block.stmts, s.Marked f.locals (paramMark ls)) ∧
      ∀ v ∈ block.terminator.values, v.Below f.locals := by
    rcases rendering.block_cases drawn here with ⟨-, rfl⟩ | ⟨span, among, rfl⟩ |
        ⟨-, -, -, _, -, rfl⟩
    · refine ⟨fun s mem => ?_, by simp [Terminator.values]⟩
      obtain ⟨⟨l, i⟩, numbered, rfl⟩ := mem_map.1 mem
      refine .assign (rendering.fresh.below l (mem_append_left _ ?_)) ?_ (by simp [Expr.values])
        trivial
      · exact fst_mem_of_mem_zipIdx numbered
      · exact paramMark_of_mem (nodup_append.1 distinct).1 numbered
    · exact rendering.span_marked drawn among here
    · simp [Terminator.values]
  exact ⟨fun p => rendering.phi_marked here, body.1, body.2⟩

end Restack.Lifting
