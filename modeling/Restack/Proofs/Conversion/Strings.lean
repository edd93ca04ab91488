/-
# Strings in converted bodies

Whatever a body pushes fits into the constant pool, since lowering refuses what does not. The
arguments of call sites are not measured (`bodyCode_strings`), nor is the message of the body that
stands in for one that failed. Every other string that a class hands over fits
(`string_fits_or_unmeasured`).
-/
import Restack.Proofs.Conversion.Methods
import Restack.Proofs.Lifting.Statements
import Restack.Proofs.LongString.Swapping
import Restack.Proofs.Lowering.Table
import Restack.Proofs.Pass.CallSites

namespace Restack

open List Restack.Outcome

/-! ## Strings of code -/

/-- A string that a class file can hold. -/
def Text.Fits (s : String) : Prop := modifiedLength s ≤ maxConstantLength

instance (s : String) : Decidable (Text.Fits s) := Nat.decLe _ _

namespace Text

lemma modifiedLength_append (s t : String) :
    modifiedLength (s ++ t) = modifiedLength s + modifiedLength t := by
  simp only [modifiedLength, String.toList_append, foldl_append, Lists.foldl_add_total, Nat.zero_add]

lemma modifiedLength_replicate (n : Nat) : modifiedLength (String.ofList (List.replicate n 'x')) = n := by
  simp [modifiedLength, Lists.foldl_add_total, charUnits, unitLength]

end Text

namespace Stack

def Constant.string? : Constant → Option String
  | .string s => some s
  | _ => none

/-- Strings that an instruction pushes. -/
def Instruction.pushedStrings : Instruction → List String
  | .ldc c => c.string?.toList
  | _ => []

/-- Strings that an instruction hands to a bootstrap method. -/
def Instruction.bootstrapStrings : Instruction → List String
  | .invokeDynamic _ _ _ arguments => arguments.filterMap Constant.string?
  | _ => []

namespace Body

def pushedStrings (b : Body) : List String := b.instructions.flatMap Instruction.pushedStrings

def bootstrapStrings (b : Body) : List String := b.instructions.flatMap Instruction.bootstrapStrings

def strings (b : Body) : List String := b.pushedStrings ++ b.bootstrapStrings

end Body

end Stack

namespace Register

def CallSite.strings (site : CallSite) : List String := site.arguments.filterMap Value.asString?

/-- Call sites that a body calls through. -/
def Code.sites (code : Code) : List CallSite := code.instructions.filterMap fun
  | .invokeCustom _ site => some site
  | _ => none

/-- Strings among the arguments of the call sites of a body. -/
def Code.siteStrings (code : Code) : List String := code.sites.flatMap CallSite.strings

end Register

/-! ## Lowering -/

namespace Lowering

open Ir
open Stack (Instruction Body)
open Register (CallSite)

/-- An instruction that pushes only strings that fit and hands only strings of `S` to
bootstrap methods. -/
structure Sourced (S : String → Prop) (i : Instruction) : Prop where
  pushed : ∀ x ∈ i.pushedStrings, Text.Fits x
  bootstrap : ∀ x ∈ i.bootstrapStrings, S x

variable {S : String → Prop} {f : Frame} {code : List Instruction}

lemma Sourced.of_silent {i} (pushed : i.pushedStrings = [])
    (bootstrap : i.bootstrapStrings = []) : Sourced S i :=
  ⟨by simp [pushed], by simp [bootstrap]⟩

lemma pushConstant_sourced {c i} (made : pushConstant c = .ok i) : Sourced S i := by
  unfold pushConstant at made
  split at made
  case h_8 s =>
    dsimp only at made
    split at made
    · simp at made
    · rename_i short
      cases made
      refine ⟨fun x mem => ?_, by simp [Instruction.bootstrapStrings]⟩
      obtain rfl : x = s := by simpa [Instruction.pushedStrings, Stack.Constant.string?] using mem
      exact Nat.le_of_not_lt short
  all_goals
    cases made
    first
    | exact .of_silent rfl rfl
    | simp only [Stack.pushInt, Stack.pushLong, Stack.pushFloat, Stack.pushDouble, pushType]
      (repeat' split) <;> exact .of_silent rfl rfl

lemma load_sourced {v i} (made : load f v = .ok i) : Sourced S i := by
  cases v with
  | var l =>
    obtain ⟨slot, -, made⟩ := bind_ok.1 made
    cases made
    exact .of_silent rfl rfl
  | const c => exact pushConstant_sourced made

lemma bootstrapArgument_string {v c x}
    (made : bootstrapArgument v = .ok c) (string : c.string? = some x) : v.asString? = some x := by
  unfold bootstrapArgument at made
  split at made
  · rename_i found
    cases made
    cases v with
    | string s =>
      cases found
      exact string
    | methodHandle h =>
      obtain ⟨h', -, rfl⟩ := Option.map_eq_some_iff.1 found
      cases string
    | _ =>
      cases found
      try cases string
  · simp at made

/-- The strings of a call site, none without one. -/
def OfSite (site : Option CallSite) (x : String) : Prop := ∃ s, site = some s ∧ x ∈ s.strings

lemma Piece.sourced {vs} {site?} {i} (part : Piece f vs site? i) : Sourced (OfSite site?) i := by
  cases part with
  | load _ made => exact load_sourced made
  | constant made => exact pushConstant_sourced made
  | @custom site _ _ called converted =>
    refine ⟨by simp [Instruction.pushedStrings], fun x mem => ?_⟩
    obtain ⟨c, among, string⟩ := mem_filterMap.1 mem
    obtain ⟨v, there, here⟩ := Lists.forall₂_mem_right (mapM_ok.1 converted) among
    exact ⟨site, called, mem_filterMap.2 ⟨v, there, bootstrapArgument_string here string⟩⟩
  | go goes => cases i <;> first | exact .of_silent rfl rfl | exact absurd rfl goes
  | work works => cases i <;> first | exact .of_silent rfl rfl | cases works

lemma lower_sourced {m body P} (calls : m.CallsIn P)
    (lowered : lower m = .ok body) {i} (inside : i ∈ body.instructions) :
    Sourced (fun x => ∃ site, P site ∧ x ∈ site.strings) i := by
  obtain ⟨slots, b, block, here, origin⟩ := lower_origin lowered inside
  cases origin with
  | label => exact .of_silent rfl rfl
  | take takes => cases i <;> first | exact .of_silent rfl rfl | cases takes
  | stmt among part =>
    refine ⟨part.sourced.pushed, fun x handed => ?_⟩
    obtain ⟨site, called, holds⟩ := part.sourced.bootstrap x handed
    exact ⟨site, calls b block here _ among site called, holds⟩
  | terminator part =>
    refine ⟨part.sourced.pushed, fun x handed => ?_⟩
    obtain ⟨site, none_, -⟩ := part.sourced.bootstrap x handed
    cases none_

end Lowering

/-! ## Lifting -/

namespace Lifting

open Ir
open Register (CallSite Code Instruction Reg)

variable {o : Outline} {stop : Nat} {i : Instruction} {vs : List Value}

lemma Does.define_site {dest e} (does : Does o stop i vs (.define dest e)) : e.site? = none := by
  cases does <;> rfl

lemma Does.perform_site {s} (does : Does o stop i vs (.perform s)) : s.site? = none := by
  cases does <;> rfl

lemma Does.call_site {e site} (does : Does o stop i vs (.call e))
    (found : e.site? = some site) : ∃ args, i = .invokeCustom args site := by
  cases does with
  | invokeCustom =>
    cases found
    exact ⟨_, rfl⟩
  | _ => cases found

lemma lift_callsIn {method code order m} (lifted : lift method code order = .ok m) : m.CallsIn (· ∈ code.sites) := by
  refine lift_each lifted (fun l i _ => .of_none rfl) fun i listed o stop vs a does => ?_
  have among {e : Expr} (does : Does o stop i vs (.call e)) :
      ∀ site, e.site? = some site → site ∈ code.sites := by
    intro site found
    obtain ⟨args, rfl⟩ := does.call_site found
    exact mem_filterMap.2 ⟨_, listed, rfl⟩
  cases a with
  | define dest e => exact fun l => .of_none does.define_site
  | call e => exact ⟨among does, fun l => among does⟩
  | perform s => exact .of_none does.perform_site
  | skip | takeResult dest | finish t => exact trivial

end Lifting

/-! ## Rebuilding strings -/

namespace LongString

open Ir

section Each

variable {m : Method} {P : Stmt → Prop} (stable : Pass.Stable P)
  (call : ∀ dst kind callee args, P (.assign dst (.invoke kind callee args)))
  (decoder : Register.MethodRef) (limit : Nat)
include stable call

lemma swapped_each {n n' vs vs' pieces}
    (swapped : Swapped decoder limit n vs pieces vs' n') : ∀ s ∈ pieces, P s := by
  induction swapped with
  | nil => simp
  | keep _ _ ih => exact ih
  | swap _ _ ih => exact forall_mem_cons.2 ⟨stable.literal .., forall_mem_cons.2 ⟨call .., ih⟩⟩

lemma swappedStmts_each {n n' stmts stmts'}
    (swapped : SwappedStmts decoder limit n stmts stmts' n') (all : ∀ s ∈ stmts, P s) :
    ∀ s ∈ stmts', P s := by
  induction swapped with
  | nil => exact all
  | cons made _ ih =>
    obtain ⟨first, rest⟩ := forall_mem_cons.1 all
    exact forall_mem_append.2 ⟨swapped_each stable call decoder limit made,
      forall_mem_cons.2 ⟨stable.withValues _ _ first, ih rest⟩⟩

lemma rebuildBlock_each (each : m.Each P) (b : BlockId) : (rebuildBlock decoder limit m b).Each P := by
  cases here : m.block? b with
  | none => simpa only [rebuildBlock, here] using each
  | some block =>
    obtain ⟨block', swapped, blocks, -⟩ := rebuildBlock_swapped decoder limit here
    intro c found there
    rw [blocks] at there
    split at there
    · cases there
      cases swapped with
      | mk body ending =>
        exact forall_mem_append.2 ⟨swappedStmts_each stable call decoder limit body (each b block here),
          swapped_each stable call decoder limit ending⟩
    · exact each c found there

lemma rebuildStrings_each (each : m.Each P) (h : ClassHelpers) : (h.rebuildStrings m limit).2.1.Each P := by
  rw [ClassHelpers.rebuildStrings]
  split
  · exact foldlRecOn (motive := fun m : Method => m.Each P) m.layout _ each
      fun m each b _ => rebuildBlock_each stable call _ limit each b
  · exact each

end Each

lemma copyMethod_strings (h : ClassHelpers) (t : Template) (m : TemplateMethod) :
    (h.copyMethod t m).2.strings = m.code.strings := by
  have pushed (i : Stack.Instruction) : (h.relocate t i).pushedStrings = i.pushedStrings := by
    unfold ClassHelpers.relocate
    split
    · split <;> rfl
    · rfl
  have bootstrap (i : Stack.Instruction) : (h.relocate t i).bootstrapStrings = i.bootstrapStrings := by
    unfold ClassHelpers.relocate
    split
    · split <;> rfl
    · rfl
  simp [ClassHelpers.copyMethod, Stack.Body.strings, Stack.Body.pushedStrings,
    Stack.Body.bootstrapStrings, flatMap_map, pushed, bootstrap]

end LongString

/-! ## Bodies and classes -/

namespace Conversion

open LongString (ClassHelpers)
open Nesting (Relations)
open Stack (Body)

variable {options : Options} {helpers helpers' : ClassHelpers} {m : Register.Method}
  {code : Register.Code} {body : Body}

/-- What the statements of a lifted body have, those of the lowered one have. -/
lemma bodyCode_each {P} (stable : Pass.Stable P)
    (call : ∀ dst kind callee args, P (.assign dst (.invoke kind callee args)))
    (lifted : ∀ order ir, Lifting.lift m code order = .ok ir → ir.Each P)
    (made : (bodyCode options helpers m code).2 = .ok body) :
    ∃ ir : Ir.Method, ir.Each P ∧ Lowering.lower ir = .ok body := by
  unfold bodyCode at made
  split at made
  · cases made
  · rename_i ir formed
    obtain ⟨first, drawn, ran⟩ := bind_ok.1 formed
    have drawn := mapError_ok.1 drawn
    obtain ⟨param, marked⟩ := Lifting.lift_marked drawn
    have each := (Pass.run_marked stable (marked.having (lifted _ first drawn)) ran).each
    dsimp only at made
    split at made
    · exact ⟨_, LongString.rebuildStrings_each stable call _ each helpers, mapError_ok.1 made⟩
    · exact ⟨ir, each, mapError_ok.1 made⟩

/-- A body pushes only strings that fit; what it hands to bootstrap methods stands
among the arguments of its call sites. -/
lemma bodyCode_strings (made : (bodyCode options helpers m code).2 = .ok body) :
    (∀ x ∈ body.pushedStrings, Text.Fits x) ∧ ∀ x ∈ body.bootstrapStrings, x ∈ code.siteStrings := by
  obtain ⟨ir, calls, lowered⟩ := bodyCode_each Pass.stable_callsIn (fun _ _ _ _ => .of_none rfl)
    (fun _ _ => Lifting.lift_callsIn) made
  have sourced := fun i => Lowering.lower_sourced (i := i) calls lowered
  constructor
  · intro x mem
    obtain ⟨i, among, here⟩ := mem_flatMap.1 mem
    exact (sourced i among).pushed x here
  · intro x mem
    obtain ⟨i, among, here⟩ := mem_flatMap.1 mem
    exact mem_flatMap.2 ((sourced i among).bootstrap x here)

variable {c : Register.Class} {out : ConvertedMethod}

@[simp] lemma failureStub_pushedStrings (f : Failure) :
    (failureStub f).pushedStrings = [f.message] := rfl

@[simp] lemma failureStub_bootstrapStrings (f : Failure) : (failureStub f).bootstrapStrings = [] := rfl

variable {s : Setting} {version : Nat} {r : Relations} {tag : UInt32} {method : Stack.Method}

lemma convertMethod_code (made : convertMethod s.options c helpers m = .ok (helpers', out))
    (coded : out.method.code = some body) : ∃ code, m.code = some code ∧
      ((bodyCode s.options helpers m code).2 = .ok body ∨
        ∃ failure, (convertBody s.options helpers m code).2 = .error failure ∧
          body = failureStub failure) := by
  cases has : m.code with
  | none =>
    rw [convertMethod_none _ has] at made
    cases made
    cases coded
  | some code =>
    rw [convertMethod_some _ has] at made
    obtain ⟨_, made, same⟩ := map_ok.1 made
    cases same
    refine ⟨code, rfl, ?_⟩
    obtain ran | ⟨failure, failed, rfl⟩ := (withBody_ok made).2.2 body coded
    · exact .inl (mapError_ok.1 (Option.some.inj ran))
    · exact .inr ⟨failure, Option.some.inj failed, rfl⟩

/-- A method that a class hands over while it is converted. One in front of a method
that aborts the conversion is handed over too. -/
inductive HandsOver (s : Setting) (version : Nat) (r : Relations) (tag : UInt32) (c : Register.Class) :
    Stack.Method → Prop
  | converted {before after m helpers helpers' done out} (split : c.methods = before ++ m :: after)
      (earlier : convertMethods s.options s.wantsMethod c
        (.ofClass (classHeader version r c).name s.templates tag) before = .ok (helpers, done))
      (wanted : s.wantsMethod ⟨methodHeader m⟩ = true)
      (made : convertMethod s.options c helpers m = .ok (helpers', out)) :
      HandsOver s version r tag c out.method
  | helper {helpers : ClassHelpers} {done method} (all : convertMethods s.options s.wantsMethod c
        (.ofClass (classHeader version r c).name s.templates tag) c.methods = .ok (helpers, done))
      (member : method ∈ helperMethods s.wantsMethod helpers) :
      HandsOver s version r tag c method

lemma convertMethods_ok {ms : List Register.Method} {done : List (Register.Method × ConvertedMethod)}
    (made : convertMethods s.options s.wantsMethod c
      (.ofClass (classHeader version r c).name s.templates tag) ms = .ok (helpers, done)) :
    emissions s tag c ms = .ok done ∧ ∃ used, helpers = { freshHelpers s tag c with used } := by
  obtain ⟨_, emitted, same⟩ := map_ok.1 ((convertMethods_eq false ms).symm.trans made)
  cases same
  exact ⟨emitted, _, rfl⟩

lemma helper_strings {used} (mem : method ∈ helperMethods s.wantsMethod { freshHelpers s tag c with used })
    (coded : method.code = some body) :
    ∃ t, s.templates LongString.decoderTemplate = some t ∧ ∃ h ∈ t.methods, body.strings = h.code.strings := by
  obtain ⟨⟨header, copy⟩, among, rfl⟩ := mem_map.1 mem
  have copied := (mem_filter.1 among).1
  unfold ClassHelpers.methods at copied
  split at copied
  · rename_i t found
    split at copied
    · obtain ⟨h, here, same⟩ := mem_map.1 copied
      cases coded
      refine ⟨t, found, h, here, ?_⟩
      rw [← LongString.copyMethod_strings { freshHelpers s tag c with used } t h, same]
    · cases copied
  · cases copied

/-- Every string in the methods that a class hands over fits, but for two kinds that are
not measured: arguments of call sites, which reach bootstrap methods as they are, and
messages of failures. -/
theorem string_fits_or_unmeasured {x : String}
    (templates : ∀ t, s.templates LongString.decoderTemplate = some t →
      ∀ h ∈ t.methods, ∀ y ∈ h.code.strings, Text.Fits y)
    (handed : HandsOver s version r tag c method) (coded : method.code = some body)
    (member : x ∈ body.strings) :
    Text.Fits x ∨
      (x ∈ body.bootstrapStrings ∧ ∃ m ∈ c.methods, ∃ code, m.code = some code ∧ x ∈ code.siteStrings) ∨
      ∃ m ∈ c.methods, ∃ code helpers failure, m.code = some code ∧
        (convertBody s.options helpers m code).2 = .error failure ∧
        body = failureStub failure ∧ x = failure.message := by
  cases handed with
  | @converted before after m helpers _ _ out split earlier wanted made =>
    have among : m ∈ c.methods := by simp [split]
    obtain ⟨code, here, translated | ⟨failure, failed, rfl⟩⟩ := convertMethod_code made coded
    · obtain ⟨pushed, bootstrap⟩ := bodyCode_strings translated
      rcases List.mem_append.1 member with inside | inside
      · exact .inl (pushed x inside)
      · exact .inr (.inl ⟨inside, m, among, code, here, bootstrap x inside⟩)
    · exact .inr (.inr ⟨m, among, code, helpers, failure, here, failed, rfl, by
        simpa [Body.strings] using member⟩)
  | helper all among =>
    obtain ⟨used, rfl⟩ := (convertMethods_ok all).2
    obtain ⟨t, found, h, inside, same⟩ := helper_strings among coded
    exact .inl (templates t found h inside x (same ▸ member))

/-- One byte more than fits. -/
def oversized : String := String.ofList (List.replicate 65536 'x')

lemma oversized_long : ¬ Text.Fits oversized := by
  intro fits
  have : 65536 ≤ 65535 := (Text.modifiedLength_replicate 65536).symm.trans_le fits
  omega

/-- A class with one method. -/
def holding (m : Register.Method) : Register.Class where
  access := 1
  name := "La/T;"
  superclass := none
  methods := [m]

def staticMethod (name : String) (code : Register.Code) : Register.Method where
  access := 9
  ref := ⟨"La/T;", name, "()V"⟩
  code := some code

/-- A body that hands a long string to a bootstrap method. -/
def longArgument : Register.Code where
  registers := 0
  instructions :=
    [.invokeCustom [] ⟨"n", "()V", ⟨.invokeStatic, .method ⟨"La/T;", "b", "()V"⟩⟩, [.string oversized]⟩,
      .returnVoid]
  tries := []

/-- What the class of one method knows at its start. -/
def helpersOf (m : Register.Method) : ClassHelpers :=
  .ofClass (classHeader 35 .empty (holding m)).name LongString.builtin 0

lemma handsOver_only {m} (made : convertMethod {} (holding m) (helpersOf m) m = .ok (helpers', out)) :
    HandsOver {} 35 .empty 0 (holding m) out.method :=
  @HandsOver.converted _ _ _ _ _ [] [] m _ _ [] out rfl rfl rfl made

lemma convertMethod_of_bodyCode (coded : m.code = some code)
    (made : (bodyCode options helpers m code).2 = .ok body) : convertMethod options c helpers m =
      .ok ((bodyCode options helpers m code).1, ⟨(declaration c m).addCode body, none⟩) := by
  simp only [convertMethod, coded, convertBody, made, Except.mapError]

lemma longArgument_handed : ∃ method body,
    HandsOver {} 35 .empty 0 (holding (staticMethod "m" longArgument)) method ∧
      method.code = some body ∧ oversized ∈ body.bootstrapStrings := by
  -- Only whether there is a string is evaluated; which one it is, is known.
  have evaluated : ((bodyCode {} (helpersOf (staticMethod "m" longArgument)) (staticMethod "m" longArgument)
      longArgument).2.toOption.any fun body => !body.bootstrapStrings.isEmpty) = true := by decide +kernel
  rw [Option.any_eq_true] at evaluated
  obtain ⟨body, found, nonempty⟩ := evaluated
  have made := of_toOption found
  refine ⟨_, body, handsOver_only (convertMethod_of_bodyCode rfl made), rfl, ?_⟩
  obtain ⟨x, inside⟩ := exists_mem_of_ne_nil body.bootstrapStrings (by simpa using nonempty)
  have given : x ∈ longArgument.siteStrings := (bodyCode_strings made).2 x inside
  obtain rfl : x = oversized := by
    simpa [longArgument, Register.Code.siteStrings, Register.Code.sites, Register.CallSite.strings,
      Register.Value.asString?] using given
  exact inside

lemma builtin_fits : ∀ t, LongString.builtin LongString.decoderTemplate = some t →
      ∀ h ∈ t.methods, ∀ y ∈ h.code.strings, Text.Fits y := by
  intro t found
  cases found
  decide

/-- A method with a long name and no instructions. -/
def longNamed : Register.Method := staticMethod oversized ⟨0, [], []⟩

lemma longName_handed : ∃ method failure, HandsOver {} 35 .empty 0 (holding longNamed) method ∧
      method.code = some (failureStub failure) ∧ ¬ Text.Fits failure.message := by
  let failure : Failure := ⟨.emptyBody, some "lift", ["method " ++ longNamed.ref.text]⟩
  have failed : convertMethod {} (holding longNamed) (helpersOf longNamed) longNamed =
      .ok (helpersOf longNamed,
        ⟨(declaration (holding longNamed) longNamed).addCode (failureStub failure), some failure⟩) := rfl
  refine ⟨_, failure, handsOver_only failed, rfl, fun fits => ?_⟩
  have long : Text.modifiedLength oversized = 65536 := Text.modifiedLength_replicate 65536
  simp only [Text.Fits, Failure.message, failure, longNamed, staticMethod, Register.MethodRef.text,
    Text.modifiedLength_append, long, Text.maxConstantLength] at fits
  omega

/-- Both kinds are met with. -/
theorem unmeasured_strings_occur :
    (∃ method body, HandsOver {} 35 .empty 0 (holding (staticMethod "m" longArgument)) method ∧
      method.code = some body ∧ oversized ∈ body.strings ∧ ¬ Text.Fits oversized ∧
      ∃ m ∈ (holding (staticMethod "m" longArgument)).methods, ∃ code, m.code = some code ∧
        oversized ∈ code.siteStrings) ∧
    ∃ method body x, HandsOver {} 35 .empty 0 (holding longNamed) method ∧
      method.code = some body ∧ x ∈ body.strings ∧ ¬ Text.Fits x ∧
      ∃ failure, body = failureStub failure ∧ x = failure.message := by
  constructor
  · obtain ⟨method, body, handed, coded, inside⟩ := longArgument_handed
    have member : oversized ∈ body.strings := List.mem_append_right _ inside
    refine ⟨method, body, handed, coded, member, oversized_long, ?_⟩
    rcases string_fits_or_unmeasured builtin_fits handed coded member with
      fits | ⟨-, given⟩ | ⟨_, _, _, _, failure, _, _, rfl, _⟩
    · exact absurd fits oversized_long
    · exact given
    · simp at inside
  · obtain ⟨method, failure, handed, coded, long⟩ := longName_handed
    have member : failure.message ∈ (failureStub failure).strings := by simp [Body.strings]
    refine ⟨method, failureStub failure, failure.message, handed, coded, member, long, ?_⟩
    rcases string_fits_or_unmeasured builtin_fits handed coded member with
      fits | ⟨inside, -⟩ | ⟨_, _, _, _, f, _, _, same, text⟩
    · exact absurd fits long
    · simp at inside
    · exact ⟨f, same, text⟩

end Conversion

end Restack
