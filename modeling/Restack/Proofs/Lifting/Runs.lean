/-
# Lifted methods run as their bodies do

`Meets` relates a place in a lifted method to one in its body. A block of a span runs as
its instructions do, at least one of them, and a landing takes none (`Meets.span_run`,
`Meets.landing_run`); so a run of the method is one of the body that goes about as far
(`Meets.run`), and each sees what the other does.
-/
import Restack.Proofs.Lifting.Arrivals
import Restack.Proofs.Lifting.LineRuns

namespace Restack.Lifting

open Register (Instruction Label Reg Code CatchClause Jump Observes)
open Ir (BlockId Local Value Stmt Terminator Block Handler World defined)
open List Outcome

/-! ## Out of a block -/

section Leave

variable {V : Type} {w : World V} {m : Ir.Method} {b : BlockId} {block : Block}
  {st st' : Ir.State V} (ran : w.stmts st block.stmts = (st', none))

include ran

lemma leave_goto {t} (exit : w.exit st' block.terminator = .goto t) :
    m.leave w b block st = .moves t st' := by
  rw [Ir.Method.leave, ran]
  simp only [exit]

lemma leave_raise {x} (exit : w.exit st' block.terminator = .raise x) :
    m.leave w b block st = m.raise w b st' x := by
  rw [Ir.Method.leave, ran]
  simp only [exit]

lemma leave_ret {v} (exit : w.exit st' block.terminator = .ret v) :
    m.leave w b block st = .ends (.returned v) st'.trace := by
  rw [Ir.Method.leave, ran]
  simp only [exit]

end Leave

/-! ## Results of calls -/

section Results

variable {o : Outline} {f : Registers} {body : BlockId → Option Block}

/-- The results that spans hand on, by position. -/
lemma RenderedAll.results {spans result result' defs} (all : RenderedAll o f body spans result result' defs)
    (chain : spans.IsChain fun a b => b.start = a.stop)
    (proper : ∀ span ∈ spans, span.start < span.stop) (start : Nat)
    (first : ∀ span ∈ spans.head?, span.start = start) :
    ∃ pending : Nat → Option Local, pending start = result ∧ (∀ span ∈ spans, start ≤ span.start) ∧
      ∀ span ∈ spans, ∃ filling t,
        Rendered o f body span (pending span.start) filling t (pending span.stop) := by
  induction all generalizing start with
  | @nil result => exact ⟨fun _ => result, rfl, by simp, by simp⟩
  | @cons span rest result filling t result' _ _ rendered _ ih =>
    obtain rfl := first span rfl
    obtain ⟨joined, chain⟩ := isChain_cons.1 chain
    obtain ⟨pending, same, order, each⟩ :=
      ih chain (fun s member => proper s (mem_cons_of_mem _ member)) _ joined
    have here := proper span mem_cons_self
    -- the positions of later spans lie behind this one, so its own can be set
    refine ⟨fun pos => if pos = span.start then result else pending pos, if_pos rfl, ?_, ?_⟩
    · intro s member
      rcases mem_cons.1 member with rfl | among
      · exact Nat.le_refl _
      · have := order s among
        omega
    · intro s member
      beta_reduce
      rcases mem_cons.1 member with rfl | among
      · rw [if_pos rfl, if_neg (by omega), same]
        exact ⟨filling, t, rendered⟩
      · have := order s among
        have := proper s member
        rw [if_neg (by omega), if_neg (by omega)]
        exact each s among

end Results

/-- `pending` gives the local that holds the result of the call in front of a
position. -/
structure Results (o : Outline) (f : Registers) (m : Ir.Method) (pending : Nat → Option Local) :
    Prop where
  first : pending 0 = none
  rendered : ∀ span ∈ o.spans, ∃ filling t,
    Rendered o f (fun b => (m.block? b).map fun block => { block with phis := [] }) span
      (pending span.start) filling t (pending span.stop)

variable {V : Type} {w : World V} {code : Code} {o : Outline} {ranges : List (Nat × Nat)}
  {starts : List Nat} (drawn : Drawn code o ranges starts) {f : Registers} {params : List String}
  {ls defs : List Local} {m : Ir.Method} (rendering : Rendering code o f params ls defs m)

section Drawn

include drawn

/-- In front of a span stands another, unless it is the first. -/
lemma Drawn.preceding {span} (member : span ∈ o.spans) :
    span.start = 0 ∨ ∃ prev ∈ o.spans, prev.stop = span.start := by
  have tile := drawn.tile member
  by_cases zero : span.start = 0
  · exact .inl zero
  · have := tile.proper
    have := tile.inside
    obtain ⟨prev, among, low, high⟩ := drawn.exists_containing
      (show span.start - 1 < o.instructions.size by omega)
    refine .inr ⟨prev, among, ?_⟩
    by_cases less : span.start < prev.stop
    · exact absurd tile.begins ((drawn.tile among).between span.start (by omega) less)
    · omega

lemma Drawn.spanInstructions_getElem? {span} (member : span ∈ o.spans) :
    (o.spanInstructions span).length + span.start = span.stop ∧
      ∀ k i, (o.spanInstructions span)[k]? = some i →
        o.instructions[span.start + k]? = some i ∧ span.start + k < span.stop := by
  have tile := drawn.tile member
  have := tile.proper
  have := tile.inside
  have length : (o.spanInstructions span).length + span.start = span.stop := by
    rw [Outline.spanInstructions, Array.length_toList, Array.size_extract]
    omega
  refine ⟨length, fun k i at_ => ?_⟩
  rw [Outline.spanInstructions, Array.getElem?_toList, Array.getElem?_extract] at at_
  split at at_
  · exact ⟨at_, by omega⟩
  · cases at_

end Drawn

section Runs

include drawn rendering

lemma Rendering.results : ∃ pending, Results o f m pending := by
  obtain ⟨result, all⟩ := rendering.spans
  obtain ⟨head, rest, spans, start, -⟩ := drawn.first_span
  obtain ⟨pending, first, -, each⟩ := all.results drawn.spans_chain
    (fun span member => (drawn.tile member).proper) 0 (by
      intro span member
      rw [spans] at member
      cases member
      exact start)
  exact ⟨pending, first, each⟩

/-! ## Exceptions -/

omit drawn rendering in
lemma forall₂_find? {cs : List CatchClause} {hs : List Handler}
    (received : List.Forall₂ (Receives o) cs hs) (x : V) :
    Option.Rel (Receives o) (cs.find? fun c => c.catches.all (w.isA · x))
      (hs.find? fun h => h.catches.all (w.isA · x)) := by
  induction received with
  | nil => exact .none
  | @cons c h _ _ first _ ih =>
    rw [find?_cons, find?_cons, first.1]
    split
    · exact .some first
    · exact ih

/-- The clauses around a throwing instruction are the handlers of its block. -/
lemma Rendering.clauses_received {span} (member : span ∈ o.spans) {pos i} (low : span.start ≤ pos)
    (high : pos < span.stop) (at_ : o.instructions[pos]? = some i) (throwing : throws i = true) :
    List.Forall₂ (Receives o) (code.clausesAt pos) (m.handlersOf span.id) ∧
      (code.clausesAt pos ≠ [] → pos + 1 = span.stop ∧ isGuarded ranges pos = true) := by
  have inside {t : Register.TryRange × (Nat × Nat)} (among : t ∈ code.tries.zip ranges) :
      inRange t.2 pos = inRange t.2 span.start :=
    drawn.inRange_iff member (of_mem_zip among).2 low high
  rw [drawn.clausesAt_eq, Ir.Method.handlersOf, rendering.traps]
  cases guarded : isGuarded ranges pos with
  | true =>
    have last : pos + 1 = span.stop := by
      by_cases before : pos + 1 < span.stop
      · have calm := (drawn.calm_inside member low before at_).2
        rw [throwing, guarded] at calm
        cases calm
      · omega
    have throws_ : o.endsThrowing span = true := by
      rw [Outline.endsThrowing, ← last, Nat.add_sub_cancel, at_]
      exact throwing
    rw [filter_congr fun t among => inside among]
    exact ⟨Lists.forall₂_flatMap (drawn.covering member throws_), fun _ => ⟨last, rfl⟩⟩
  | false =>
    have bare : (code.tries.zip ranges).filter (fun t => inRange t.2 pos) = [] := by
      rw [filter_eq_nil_iff]
      intro t among inRange_
      rw [isGuarded, any_eq_false] at guarded
      exact guarded t.2 (of_mem_zip among).2 inRange_
    have uncovered : o.traps.filter (·.covered.contains span.id) = [] := by
      rw [filter_eq_nil_iff]
      intro trap among covers
      obtain ⟨span', member', same, -, range, bounds, inRange_⟩ :=
        drawn.covered among (contains_iff_mem.1 covers)
      rw [drawn.span_eq_of_id member' member same, ← drawn.inRange_iff member bounds low high] at inRange_
      rw [isGuarded, any_eq_false] at guarded
      exact guarded range bounds inRange_
    rw [bare, uncovered]
    exact ⟨.nil, by simp⟩

lemma Rendering.raise_cases {span} (member : span ∈ o.spans) {pos i}
    (low : span.start ≤ pos) (high : pos < span.stop) (at_ : o.instructions[pos]? = some i)
    (throwing : throws i = true) (w : World V) (x : V) :
    (∀ ist st, m.raise w span.id ist x = .ends (.escaped x) ist.trace ∧
        code.raise w pos st x = .ok (.ends (.escaped x) st.trace)) ∨
      pos + 1 = span.stop ∧ isGuarded ranges pos = true ∧
        ∃ label ∈ jumpLabels code, ∃ span' ∈ o.spans, o.blockOf label = .ok span'.id ∧
          ∀ ist st, m.raise w span.id ist x = .moves span'.id { ist with caught := x } ∧
            code.raise w pos st x = code.goTo { st with caught := x } label := by
  obtain ⟨received, guarded⟩ := rendering.clauses_received drawn member low high at_ throwing
  have found := forall₂_find? (w := w) received x
  generalize clause : (code.clausesAt pos).find? _ = c at found
  generalize handler : (m.handlersOf span.id).find? _ = h at found
  cases found with
  | none => exact .inl fun ist st => by simp only [Ir.Method.raise, handler, Code.raise, clause, and_self]
  | @some c h receives =>
    have among := mem_of_find?_eq_some clause
    obtain ⟨last, inside⟩ := guarded (ne_nil_of_mem among)
    obtain ⟨t, guards, clause_⟩ := mem_flatMap.1 among
    obtain ⟨span', member', -, same⟩ := drawn.blockOf_ok.1 receives.2
    refine .inr ⟨last, inside, c.handler, ?_, span', member', same ▸ receives.2, fun ist st => ?_⟩
    · exact mem_append_right _ (mem_flatMap.2 ⟨t, (mem_filter.1 guards).1, mem_map.2 ⟨c, clause_, rfl⟩⟩)
    · simp only [Ir.Method.raise, handler, Code.raise, clause, same, and_self]

/-! ## Places that meet -/

omit drawn rendering

/-- A place in a lifted method and one in its body. The first index is how many
blocks there are to pass before the next instruction. -/
inductive Meets (w : World V) (o : Outline) (f : Registers) (m : Ir.Method)
    (pending : Nat → Option Local) : Nat → BlockId → Nat → Ir.State V → Register.State V → Prop
  | span {span passed ist st} (member : span ∈ o.spans) (entered : m.Enters span.id passed)
      (tracks : Tracks w (f.known span.id) (pending span.start) ist st) :
      Meets w o f m pending 0 span.id span.start ist st
  | landing {span b passed ist st} (member : span ∈ o.spans) (landing : span.landing = some b)
      (entered : m.Enters b passed) (tracks : Tracks w (f.exits b) (pending span.stop) ist st) :
      Meets w o f m pending 1 b span.stop ist st

/-- The body follows the method out of a block in a number of instructions. -/
inductive Follows (w : World V) (code : Code) (o : Outline) (f : Registers) (m : Ir.Method)
    (pending : Nat → Option Local) (b : BlockId) (pos : Nat) (st : Register.State V) :
    Nat → Ir.Arrival V → Prop
  | moves {n k pos' t ist' st'} (reaches : code.Reaches w n pos st pos' st') (rank : k ≤ n)
      (meets : Meets w o f m pending k t pos' (w.assignPhis b (m.phisOf t) ist') st') :
      Follows w code o f m pending b pos st n (.moves t ist')
  | ends {n e trace} (ran : code.runFrom w n pos st = .ok ⟨trace, some e⟩) :
      Follows w code o f m pending b pos st n (.ends e trace)

variable {pending : Nat → Option Local} (results : Results o f m pending)
  (follow : entersResult code = false)

include drawn rendering results

lemma Results.waits {span} (member : span ∈ o.spans) {l}
    (waits : pending span.start = some l) : takesResult o span.start = true ∧
      ∃ prev ∈ o.spans, prev.stop = span.start ∧ prev.landing = none ∧
        ∃ block, m.block? prev.id = some block ∧ l ∈ defined block.stmts := by
  rcases drawn.preceding member with first | ⟨prev, among, stop⟩
  · rw [first, results.first] at waits
    cases waits
  · obtain ⟨filling, t, rendered⟩ := results.rendered prev among
    rw [stop, waits] at rendered
    obtain ⟨defines, takes, straight⟩ := rendered.leaves_result drawn among
    exact ⟨stop ▸ takes, prev, among, stop, straight, _, rendering.block_of_body rendered.block, defines⟩

include follow

lemma Results.handed {span} (member : span ∈ o.spans) {l}
    (waits : pending span.start = some l) {b block before}
    (here : m.block? b = some block) (leaves : m.Leaves b block before span.id) :
    ∃ prev ∈ o.spans, b = prev.id ∧ prev.stop = span.start := by
  obtain ⟨takes, prev, among, stop, straight, -⟩ := results.waits drawn rendering member waits
  exact ⟨prev, among, (rendering.leaves_to_result drawn follow member takes among stop straight here
    leaves).1, stop⟩

lemma Results.unlabelled {span} (member : span ∈ o.spans) {label}
    (named : label ∈ jumpLabels code) (found : o.blockOf label = .ok span.id) :
    pending span.start = none := by
  cases waits : pending span.start with
  | none => rfl
  | some l =>
    have takes := (results.waits drawn rendering member waits).1
    exact absurd found (drawn.blockOf_result follow named member takes)

section Arrive

variable {b : BlockId} {block : Block} {passed : List Local} {before : List Stmt}
  {ist : Ir.State V} {st : Register.State V} {result : Option Local}

lemma Meets.arrive {span} (member : span ∈ o.spans) (entered : m.Enters b passed)
    (here : m.block? b = some block) (leaves : m.Leaves b block before span.id)
    (tracks : Tracks w (f.exits b) result ist st)
    (handed : ∀ l, pending span.start = some l → st.result = some (ist.env l)) :
    Meets w o f m pending 0 span.id span.start (w.assignPhis b (m.phisOf span.id) ist) st := by
  obtain ⟨filling, t, rendered⟩ := results.rendered span member
  have there := rendering.block_of_body rendered.block
  rw [Ir.Method.phisOf_eq there]
  refine .span member (.next entered here leaves there) ⟨fun r v x held at_ => ?_, fun l waits => ?_,
    tracks.caught, tracks.trace⟩
  · exact rendering.arrive drawn follow entered here leaves there held
      fun u exit => tracks.regs r u x exit at_
  · obtain ⟨-, prev, -, -, -, block', found, defines⟩ := results.waits drawn rendering member waits
    rw [handed l waits, World.assignPhis_other]
    exact fun phi => rendering.phi_apart drawn there found phi defines

variable {pos q n : Nat} {t : BlockId} {ist' : Ir.State V} {st' st₁ : Register.State V}

lemma Follows.label (entered : m.Enters b passed) (here : m.block? b = some block)
    (left : m.leave w b block ist = .moves t ist') (tracks : Tracks w (f.exits b) result ist' st₁)
    {label} (found : o.blockOf label = .ok t)
    (idle : ∀ span ∈ o.spans, span.id = t → pending span.start = none)
    (reaches : code.Reaches w n pos st q st') (goes : code.step w q st' = code.goTo st₁ label) :
    Follows w code o f m pending b pos st (n + 1) (.moves t ist') := by
  obtain ⟨before, out⟩ := Ir.Method.goes_of_leave left
  obtain ⟨span, member, at_, rfl⟩ := drawn.blockOf_ok.1 found
  rw [Code.goTo, drawn.position_ok.1 at_] at goes
  refine .moves (reaches.snoc goes) (Nat.zero_le _) (Meets.arrive drawn rendering results follow
    member entered here (out.leaves here) tracks.settle fun l waits => ?_)
  rw [idle span member rfl] at waits
  cases waits

lemma Follows.next (entered : m.Enters b passed) (here : m.block? b = some block)
    (left : m.leave w b block ist = .moves t ist')
    (tracks : Tracks w (f.exits b) (pending q) ist' st') (found : o.blockAt q = .ok t)
    (reaches : code.Reaches w n pos st q st') : Follows w code o f m pending b pos st n (.moves t ist') := by
  obtain ⟨before, out⟩ := Ir.Method.goes_of_leave left
  obtain ⟨span, member, rfl, rfl⟩ := drawn.blockAt_ok.1 found
  exact .moves reaches (Nat.zero_le _) (Meets.arrive drawn rendering results follow member entered
    here (out.leaves here) tracks tracks.result)

/-- A landing does nothing of its own. -/
lemma Meets.landing_run {span} (member : span ∈ o.spans) (landing : span.landing = some b)
    (entered : m.Enters b passed) (tracks : Tracks w (f.exits b) (pending span.stop) ist st)
    (here : m.block? b = some block) :
    Follows w code o f m pending b span.stop st 0 (m.leave w b block ist) := by
  obtain ⟨next, behind, found⟩ := rendering.landing_block member landing
  rw [found] at here
  cases here
  exact Follows.next drawn rendering results follow entered found rfl tracks behind .here

end Arrive

section Span

variable {span : Span} (member : span ∈ o.spans) {block : Block} {passed : List Local}
  {ist ist' : Ir.State V} {st st' st₁ : Register.State V} {n q : Nat} {i : Instruction}
  (entered : m.Enters span.id passed) (here : m.block? span.id = some block)

include member entered here

lemma Follows.raise {x} (left : m.leave w span.id block ist = m.raise w span.id ist' x)
    (low : span.start ≤ q) (high : q < span.stop) (at_ : o.instructions[q]? = some i)
    (throwing : throws i = true) (trace : st₁.trace = ist'.trace)
    (tracks : q + 1 = span.stop → isGuarded ranges q = true → Tracks w (f.exits span.id) none ist' st₁)
    (reaches : code.Reaches w n span.start st q st') (raises : code.step w q st' = code.raise w q st₁ x) :
    Follows w code o f m pending span.id span.start st (n + 1) (m.leave w span.id block ist) := by
  rcases rendering.raise_cases drawn member low high at_ throwing w x with
    escapes | ⟨last, guarded, label, named, span', member', found, caught⟩
  · obtain ⟨ends, ends'⟩ := escapes ist' st₁
    rw [left, ends]
    refine .ends ?_
    rw [reaches.run, Code.runFrom, raises, ends', trace]
  · obtain ⟨goes, goes'⟩ := caught ist' st₁
    rw [goes] at left
    rw [goes'] at raises
    rw [left]
    refine Follows.label drawn rendering results follow entered here left
      ((tracks last guarded).catching x) found (fun span'' among same => ?_) reaches raises
    rw [drawn.span_eq_of_id among member' same]
    exact results.unlabelled drawn rendering follow member' named found

/-- Out of a span by its last instruction. -/
lemma Follows.leap {t j} (ran : w.stmts ist block.stmts = (ist', none))
    (ends : block.terminator = t) (last : q + 1 = span.stop) (low : span.start ≤ q)
    (at_ : o.instructions[q]? = some i) (throwing : throws i = t.isThrow)
    (tracks : Tracks w (f.exits span.id) none ist' st')
    (leads : Leads o span.stop (f.exits span.id) j t) (idle : pending span.stop = none)
    (reaches : code.Reaches w n span.start st q st')
    (leaps : code.step w q st' = code.leap w q st' j) (sound : code.step w q st' ≠ .error .half) :
    Follows w code o f m pending span.id span.start st (n + 1) (m.leave w span.id block ist) := by
  subst ends
  -- a result would wait behind the span only, and the last instruction leaves none
  have none_ {t : BlockId} (left : m.leave w span.id block ist = .moves t ist') :
      ∀ span' ∈ o.spans, span'.id = t → pending span'.start = none := by
    rintro span' member' rfl
    cases waits : pending span'.start with
    | none => rfl
    | some l =>
      obtain ⟨before, out⟩ := Ir.Method.goes_of_leave left
      obtain ⟨prev, among, same, stop⟩ :=
        results.handed drawn rendering follow member' waits here (out.leaves here)
      rw [← stop, ← drawn.span_eq_of_id member among same, idle] at waits
      cases waits
  have label {target : Label} {t : BlockId} (left : m.leave w span.id block ist = .moves t ist')
      (found : o.blockOf target = .ok t) (goes : code.step w q st' = code.goTo st' target) :
      Follows w code o f m pending span.id span.start st (n + 1) (m.leave w span.id block ist) := by
    rw [left]
    exact Follows.label drawn rendering results follow entered here left tracks found (none_ left)
      reaches goes
  have next {t : BlockId} (left : m.leave w span.id block ist = .moves t ist')
      (found : o.blockAt span.stop = .ok t)
      (goes : code.step w q st' = .ok (.moves (q + 1) st'.settle)) :
      Follows w code o f m pending span.id span.start st (n + 1) (m.leave w span.id block ist) := by
    rw [left]
    rw [last] at goes
    exact Follows.next drawn rendering results follow entered here left (idle ▸ tracks.settle) found
      (reaches.snoc goes)
  generalize own : block.terminator = t at leads throwing
  rw [leaps] at sound
  cases leads with
  | leave =>
    have exit : w.exit ist' block.terminator = .ret none := by rw [own]; rfl
    rw [leave_ret ran exit]
    refine .ends ?_
    rw [reaches.run, Code.runFrom, leaps, Code.leap, tracks.trace]
  | @ret src v held =>
    have exit : w.exit ist' block.terminator = .ret (some (w.value ist'.env v)) := by rw [own]; rfl
    have leaps := leaps.trans (bind_of_sound (tracks.read (.reg held)) sound)
    rw [leave_ret ran exit]
    refine .ends ?_
    rw [reaches.run, Code.runFrom, leaps, tracks.trace]
  | raise held =>
    have leaps := leaps.trans (bind_of_sound (tracks.read (.reg held)) sound)
    exact Follows.raise drawn rendering results follow member entered here
      (leave_raise ran (own ▸ rfl)) low (last ▸ Nat.lt_succ_self q) at_ throwing tracks.trace
      (fun _ _ => tracks) reaches leaps
  | goto found => exact label (leave_goto ran (own ▸ rfl)) found leaps
  | branch held other found behind =>
    have first := bind_of_sound (tracks.read (.reg held)) sound
    have leaps := leaps.trans first
    have leaps := leaps.trans (bind_of_sound (tracks.readIf other) fun fault => sound (first.trans fault))
    split at leaps
    · rename_i holds
      exact label (leave_goto ran (by rw [own, World.exit, if_pos holds])) found leaps
    · rename_i fails
      exact next (leave_goto ran (by rw [own, World.exit, if_neg fails])) behind leaps
  | @switch src target? v cases default held found behind =>
    have leaps := leaps.trans (bind_of_sound (tracks.read (.reg held)) sound)
    have exit : w.exit ist' block.terminator =
        .goto ((cases.lookup (w.key (w.value ist'.env v))).getD default) := by rw [own, World.exit]
    have case_ := found (w.key (w.value ist'.env v))
    generalize cases.lookup (w.key (w.value ist'.env v)) = chosen at case_ exit
    generalize target? (w.key (w.value ist'.env v)) = target at case_ leaps
    cases case_ with
    | none => exact next (leave_goto ran exit) behind leaps
    | some found => exact label (leave_goto ran exit) found leaps

omit results in
/-- Out of a span to its landing. -/
lemma Follows.land {filling : Filling} {t : Terminator} {l : BlockId}
    (rendered : Rendered o f (fun b => (m.block? b).map fun block => { block with phis := [] }) span
      (pending span.start) filling t (pending span.stop))
    (landing : span.landing = some l) (same : block.stmts = filling.stmts)
    (left : m.leave w span.id block ist = .moves l ist')
    (tracks : Tracks w (after (f.known span.id) (filling.deferred.toList ++ (f.table span.id).written))
      (pending span.stop) ist' st')
    (reaches : code.Reaches w n span.start st span.stop st') (some_ : 1 ≤ n) :
    Follows w code o f m pending span.id span.start st n (.moves l ist') := by
  obtain ⟨before, out⟩ := Ir.Method.goes_of_leave left
  have leaves := out.leaves here
  obtain ⟨next, -, there⟩ := rendering.landing_block member landing
  obtain ⟨-, -, -, written⟩ := rendered.landing l landing
  have phis : m.phisOf l = phisOf f l := by rw [Ir.Method.phisOf_eq there]
  refine .moves reaches some_ (.landing member landing (.next entered here leaves there)
    ⟨fun r v x held at_ => ?_, fun k waits => ?_, tracks.caught, tracks.trace⟩)
  · -- a register that the landing does not write holds what it held in front of it
    have passed_ {u : Value} (known : f.known l r = some u)
        (other : ∀ v, f.exits span.id r = some v →
          after (f.known span.id) (filling.deferred.toList ++ (f.table span.id).written) r = some v) :
        w.value (w.assignPhis span.id (m.phisOf l) ist').env u = x := by
      rw [phis]
      exact rendering.arrive drawn follow entered here leaves there known
        fun v exit => tracks.regs r v x (other v exit) at_
    rw [Registers.exits, written] at held
    cases deferred : filling.deferred with
    | none =>
      rw [deferred] at held
      exact passed_ held fun v exit => by rw [deferred]; exact exit
    | some d =>
      obtain ⟨dest, k⟩ := d
      rw [deferred, Option.toList_some, after_cons] at held
      split at held
      · rename_i here'
        cases held
        have fresh : k ∉ (m.phisOf l).map (·.dst) := by
          intro phi
          rw [Ir.Method.phisOf_eq there] at phi
          exact rendering.phi_apart drawn there here phi
            (same ▸ rendered.lines.deferred_defined deferred)
        rw [World.value, World.assignPhis_other fresh]
        refine tracks.regs r (.var k) x ?_ at_
        rw [deferred, Option.toList_some, singleton_append, after_cons, if_pos here']
      · rename_i other
        refine passed_ held fun v exit => ?_
        rw [deferred, Option.toList_some, singleton_append, after_cons, if_neg other]
        exact exit
  · rw [waits] at rendered
    rw [(rendered.leaves_result drawn member).2.2] at landing
    cases landing

lemma Results.span_apart : ∃ A, Among A (f.known span.id) [] (pending span.start) ∧
    ∀ l ∈ A, l ∉ defined block.stmts := by
  refine ⟨passed.filter (· ∉ defined block.stmts) ++ (pending span.start).toList,
    ⟨fun r l held => ?_, by simp, fun l waits => by simp [waits]⟩, fun l among => ?_⟩
  · refine mem_append_left _ (mem_filter.2 ⟨rendering.ready drawn follow entered r l held, ?_⟩)
    simpa using rendering.known_apart drawn follow entered here held
  · rcases mem_append.1 among with old | waits
    · simpa using (mem_filter.1 old).2
    · intro again
      obtain ⟨-, prev, among, stop, -, block', there, defines⟩ :=
        results.waits drawn rendering member (Option.mem_toList.1 waits)
      have same := (rendering.sound drawn follow).defs_apart _ _ _ _ l here there
        (mem_append_right _ again) (mem_append_right _ defines)
      have proper := (drawn.tile member).proper
      rw [drawn.span_eq_of_id member among same] at proper stop
      omega

/-- The block of a span runs as its instructions do. -/
lemma Meets.span_run (tracks : Tracks w (f.known span.id) (pending span.start) ist st)
    (whole : code.Whole w span.start st) : ∃ n, 1 ≤ n ∧
      Follows w code o f m pending span.id span.start st n (m.leave w span.id block ist) := by
  obtain ⟨A, among, apart⟩ :=
    results.span_apart drawn rendering follow member entered here
  obtain ⟨filling, t, rendered⟩ := results.rendered span member
  have found := rendering.block_of_body rendered.block
  rw [found] at here
  cases here
  obtain ⟨length, positions⟩ := drawn.spanInstructions_getElem? member
  have proper := (drawn.tile member).proper
  have distinct := (rendering.sound drawn follow).block_defs _ _ found
  have run : LinesRun code w o span (f.known span.id) span.start (o.spanInstructions span) filling
      (f.table span.id).written (pending span.stop) ist st := rendered.lines.run
    (fun k i at_ => (drawn.steps _).trans (positions k i at_).1)
    (fun k i at_ inside => (drawn.calm_inside member (Nat.le_add_right _ k) (by omega)
      (positions k i at_).1).1)
    among apart (nodup_append.1 distinct).2.1 tracks whole
  have ends := rendered.ends
  cases run with
  | @passes ist' st' ran reaches goesOn tracks' =>
    rw [Nat.add_comm span.start, length] at reaches
    rw [goesOn] at ends
    refine ⟨(o.spanInstructions span).length, by omega, ?_⟩
    cases ends with
    | @land l landing =>
      have left : m.leave w span.id ⟨phisOf f span.id, filling.stmts, .goto l⟩ ist =
          .moves l ist' := leave_goto ran rfl
      rw [left]
      exact Follows.land drawn rendering follow member entered found rendered landing rfl left
        tracks' reaches (by omega)
    | @fall next landing behind =>
      have left : m.leave w span.id ⟨phisOf f span.id, filling.stmts, .goto next⟩ ist =
          .moves next ist' := leave_goto ran rfl
      rw [left]
      cases deferred : filling.deferred with
      | some d =>
        have lands := rendered.lines.deferred_landing deferred
        rw [landing] at lands
        cases lands
      | none =>
        rw [deferred] at tracks'
        exact Follows.next drawn rendering results follow entered found left tracks' behind reaches
  | @raises ist' st₁ st' x k i before ran reaches at_ throwing raises tracks' last =>
    obtain ⟨instruction, inside⟩ := positions k i at_
    have left : m.leave w span.id ⟨phisOf f span.id, filling.stmts, t⟩ ist =
        m.raise w span.id ist' x := by
      rw [Ir.Method.leave, ran]
    refine ⟨k + 1, by omega, Follows.raise drawn rendering results follow member entered found left
      (Nat.le_add_right _ k) inside instruction throwing tracks'.trace (fun stop guarded => ?_)
      reaches raises⟩
    have lands (dest : Reg) (writes : throwingDest? i = some dest) : span.landing.isSome = true := by
      rw [drawn.landing_isSome member, needsLanding, ← stop, Nat.add_sub_cancel, instruction]
      simp [writes, guarded]
    rw [last (by omega) lands] at tracks'
    exact tracks'
  | @jumps ist' st' t' j k i ran reaches at_ last own throwing leaps tracks' leads idle =>
    obtain ⟨instruction, inside⟩ := positions k i at_
    rw [own] at ends
    cases ends
    exact ⟨k + 1, by omega, Follows.leap drawn rendering results follow member entered found ran rfl
      (by omega) (Nat.le_add_right _ k) instruction throwing tracks' leads idle reaches leaps
      (whole.reaches reaches).step⟩

end Span

/-! ## Runs -/

/-- A run of the method is one of the body that goes about as far. -/
lemma Meets.run (n : Nat) {k pos b ist st}
    (meets : Meets w o f m pending k b pos ist st) (whole : code.Whole w pos st) :
    ∃ j, code.runFrom w j pos st = .ok (m.runFrom w n b ist) ∧
      ((m.runFrom w n b ist).ending = none → n ≤ 2 * j + k) := by
  induction n generalizing k pos b ist st with
  | zero =>
    refine ⟨0, ?_, fun _ => Nat.zero_le _⟩
    cases meets with
    | span _ _ tracks | landing _ _ _ tracks => rw [Code.runFrom, Ir.Method.runFrom, tracks.trace]
  | succ n ih =>
    obtain ⟨block, here, i, some_, follows⟩ : ∃ block, m.block? b = some block ∧ ∃ i, 1 ≤ i + k ∧
        Follows w code o f m pending b pos st i (m.leave w b block ist) := by
      cases meets with
      | span member entered tracks =>
        obtain ⟨filling, t, rendered⟩ := results.rendered _ member
        have here := rendering.block_of_body rendered.block
        obtain ⟨i, some_, follows⟩ :=
          Meets.span_run drawn rendering results follow member entered here tracks whole
        exact ⟨_, here, i, some_, follows⟩
      | landing member landing entered tracks =>
        obtain ⟨next, -, here⟩ := rendering.landing_block member landing
        exact ⟨_, here, 0, Nat.le_refl 1,
          Meets.landing_run drawn rendering results follow member landing entered tracks here⟩
    simp only [Ir.Method.runFrom, here]
    generalize m.leave w b block ist = arrival at follows ⊢
    cases follows with
    | ends ran => exact ⟨i, ran, fun over_ => by cases over_⟩
    | moves reaches rank meets' =>
      obtain ⟨j, ran, far⟩ := ih meets' (whole.reaches reaches)
      refine ⟨i + j, (reaches.run j).trans ran, fun going => ?_⟩
      have := far going
      omega

end Runs

/-! ## Arguments -/

/-- Arguments lie in the registers in which the entry defines them. -/
lemma receive_tracks {known} (n : Nat) (r : Reg) {types ls} (count : ls.length = types.length) (distinct : ls.Nodup)
    {writes ist st} (fresh : ∀ l ∈ ls, ∀ r, after known writes r ≠ some (.var l))
    (tracks : Tracks w (after known writes) none ist st) :
    ∃ ist', w.stmts ist (paramStmts n ls) = (ist', none) ∧
      Tracks w (after known (((paramRegs r types).zip ls).reverse ++ writes)) none ist'
        (st.receive w n r types) := by
  induction types generalizing n r ls writes ist st with
  | nil =>
    obtain rfl := eq_nil_of_length_eq_zero count
    exact ⟨ist, rfl, tracks⟩
  | cons type types ih =>
    cases ls with
    | nil => cases count
    | cons l ls =>
      obtain ⟨new, distinct⟩ := nodup_cons.1 distinct
      have first : Tracks w (after known ((r, l) :: writes)) none (ist.set l (w.argument n))
          (st.write r (Register.isPair type) (w.argument n)) :=
        (tracks.set _ (fresh l mem_cons_self)).write r _ (by simp)
      have fresh' (k : Local) (member : k ∈ ls) (q : Reg) :
          after known ((r, l) :: writes) q ≠ some (.var k) := by
        rw [after_cons]
        split
        · rintro same
          cases same
          exact new member
        · exact fresh k (mem_cons_of_mem _ member) q
      obtain ⟨ist', ran, tracks'⟩ := ih (n + 1) (r + Register.argumentWidth type)
        (Nat.succ.inj count) distinct fresh' first
      refine ⟨ist', ran, ?_⟩
      have same : ((paramRegs r (type :: types)).zip (l :: ls)).reverse ++ writes =
          ((paramRegs (r + paramWidth type) types).zip ls).reverse ++ (r, l) :: writes := by
        simp [paramRegs]
      rw [same]
      exact tracks'

lemma argumentTypes_eq {method signature}
    (parsed : Signature.methodDescriptor method.ref.descriptor = .ok signature) :
    method.argumentTypes = parameters method signature := by
  simp only [Register.Method.argumentTypes, parsed, parameters]
  split <;> rfl

section Start

include rendering

lemma Rendering.known_entry {r v} (held : f.known Lifting.entry r = some v) : v = .zero := by
  obtain ⟨u, found, rfl⟩ := Option.map_eq_some_iff.1 held
  cases rendering.good.entered _ r u found with
  | phi made here => exact absurd here (rendering.good.merged _ _ made).inner
  | passed inner => exact absurd rfl inner
  | unset _ resolved => exact resolved

include drawn

/-- The first instruction meets the block behind the entry. -/
lemma Rendering.start_meets {method : Register.Method} (types : method.argumentTypes = params)
    {pending} (results : Results o f m pending) (follow : entersResult code = false) (st : Ir.State V) :
    ∃ t st', (∀ n, m.run w (n + 1) st = m.runFrom w n t st') ∧
      Meets w o f m pending 0 t 0 st' (method.start code w st.caught st.trace) := by
  obtain ⟨span, rest, spans, start, id⟩ := drawn.first_span
  have member : span ∈ o.spans := spans ▸ mem_cons_self
  have here := rendering.entry_block drawn
  have fresh (l : Local) (r : Reg) : after (f.known Lifting.entry) [] r ≠ some (.var l) := by
    intro held
    have := rendering.known_entry held
    cases this
  have zero : Tracks w (after (f.known Lifting.entry) []) none st
      ⟨fun _ => .value (w.constant (.literal 0 false)), none, st.caught, st.trace⟩ := by
    refine ⟨fun r v x held at_ => ?_, by simp, rfl, rfl⟩
    cases at_
    rw [rendering.known_entry held]
    rfl
  obtain ⟨ist, ran, tracks⟩ := receive_tracks 0
    (code.registers - total (params.map Register.argumentWidth)) rendering.count
    (nodup_append.1 rendering.fresh_nodup).1 (fun l _ => fresh l) zero
  have left : m.leave w Lifting.entry ⟨[], paramStmts 0 ls, .goto ⟨1⟩⟩ st = .moves span.id ist := by
    rw [id]
    exact leave_goto ran rfl
  obtain ⟨before, out⟩ := Ir.Method.goes_of_leave left
  have exits : f.exits Lifting.entry =
      after (f.known Lifting.entry) (((paramRegs (code.registers -
        total (params.map Register.argumentWidth)) params).zip ls).reverse ++ []) := by
    rw [Registers.exits, rendering.written, append_nil]
    rfl
  have entered : m.Enters Lifting.entry [] := by
    rw [← rendering.entry]
    exact .start
  have meets := Meets.arrive drawn rendering results follow member entered here
    (out.leaves here) (exits ▸ tracks) (fun l waits => by
      rw [start, results.first] at waits
      cases waits)
  refine ⟨span.id, w.assignPhis Lifting.entry (m.phisOf span.id) ist, fun n => ?_, ?_⟩
  · rw [Ir.Method.run, rendering.entry]
    simp only [Ir.Method.runFrom, here, left]
  · rw [start] at meets
    rw [Register.Method.start, types]
    exact meets

end Start

/-- A lifted method does to the world what its body does, with the same operands,
and ends the same way: whatever a run of the body sees, a run of the method sees,
and all that a run of the method sees a run of the body does. Neither is ever
without an instruction to go on with. -/
theorem lift_keeps_runs {V : Type} {method : Register.Method} {code : Code} {order : ClosingOrder}
    {m : Ir.Method} (lifted : lift method code order = .ok m) (follow : entersResult code = false) (w : World V)
    (st : Ir.State V) (whole : ∀ k, method.run code w k st.caught st.trace ≠ .error .half) :
    (∀ k, ∃ seen n, method.run code w k st.caught st.trace = .ok seen ∧ Observes seen (m.run w n st)) ∧
    ∀ n, ∃ k, method.run code w k st.caught st.trace = .ok (m.run w n st) := by
  obtain ⟨signature, o, ranges, starts, f, ls, defs, parsed, -, drawn, rendering⟩ :=
    lift_rendering lifted
  obtain ⟨pending, results⟩ := rendering.results drawn
  obtain ⟨t, st', first, meets⟩ :=
    rendering.start_meets (w := w) drawn (argumentTypes_eq parsed) results follow st
  have runs (n : Nat) : ∃ j, method.run code w j st.caught st.trace = .ok (m.run w (n + 1) st) ∧
      ((m.run w (n + 1) st).ending = none → n ≤ 2 * j) := by
    rw [first]
    exact Meets.run drawn rendering results follow n meets whole
  refine ⟨fun k => ?_, fun n => ?_⟩
  · -- far enough on, the run of the method goes with at least as many instructions, or is over
    obtain ⟨j, ran, far⟩ := runs (2 * k)
    by_cases shorter : k ≤ j
    · obtain ⟨seen, ran', observes⟩ := Code.runFrom_upto shorter ran
      exact ⟨seen, _, ran', observes⟩
    · have over_ : (m.run w (2 * k + 1) st).ending ≠ none := by
        intro going
        have := far going
        omega
      exact ⟨_, _, Code.runFrom_over (by omega) over_ ran, List.prefix_rfl, fun _ => rfl⟩
  · cases n with
    | zero => exact ⟨0, by rw [Register.Method.run, Code.runFrom, Register.Method.start_trace]; rfl⟩
    | succ n =>
      obtain ⟨j, ran, -⟩ := runs n
      exact ⟨j, ran⟩

/-- Counts the elements of an array into a register that holds five; where that
fails, the handler gives the five back. -/
def lengthOrFive : Code where
  registers := 4
  instructions := [.constWide 0 7, .const 2 5, .mark ⟨"start"⟩, .arrayLength 2 3, .mark ⟨"stop"⟩,
    .returnValue .wide 0, .mark ⟨"handler"⟩, .moveException 0, .returnValue .single 2]
  tries := [⟨⟨"start"⟩, ⟨"stop"⟩, [⟨some "LAbsent;", ⟨"stop"⟩⟩, ⟨none, ⟨"handler"⟩⟩]⟩]

def lengthOrFiveMethod : Register.Method where
  access := 8
  ref := ⟨"LLength;", "orFive", "([I)J"⟩
  code := some lengthOrFive

/-- The number in a literal. -/
def literalBits : Ir.Constant → Int64
  | .literal bits _ => bits
  | _ => 0

/-- A world that answers everything with an exception of no class. -/
def refusing : World Int64 where
  constant := literalBits
  argument _ := 3
  compute _ _ := 0
  respond _ _ := .exception 9
  holds _ _ _ := false
  key _ := 0
  thrown v := v
  isA _ _ := false

theorem lengthOrFive_gives_five : ∃ m, lift lengthOrFiveMethod lengthOrFive = .ok m ∧
    entersResult lengthOrFive = false ∧
    (∀ k, lengthOrFiveMethod.run lengthOrFive refusing k 0 [] ≠ .error .half) ∧
    ∃ n, m.run refusing n ⟨fun _ => 0, 0, []⟩ =
      ⟨[⟨.expr (.arrayLength .zero), [3]⟩], some (.returned (some 5))⟩ := by
  obtain ⟨m, lifted⟩ : ∃ m, lift lengthOrFiveMethod lengthOrFive = .ok m :=
    exists_of_isOk (by decide +kernel)
  have follow : entersResult lengthOrFive = false := by decide +kernel
  have five : lengthOrFiveMethod.run lengthOrFive refusing 5 0 [] =
      .ok ⟨[⟨.expr (.arrayLength .zero), [3]⟩], some (.returned (some 5))⟩ := by rfl
  have whole := Code.whole_of_over (by simp) five
  obtain ⟨seen, n, ran, observes⟩ :=
    (lift_keeps_runs lifted follow refusing ⟨fun _ => 0, 0, []⟩ whole).1 5
  rw [five] at ran
  cases ran
  exact ⟨m, lifted, follow, whole, n, (observes.ending (by simp)).symm⟩

end Restack.Lifting
