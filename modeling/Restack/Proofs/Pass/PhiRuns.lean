/-
# Copies run like phis

While control is on its way into a block the new method has assigned the carriers of the
block's phis and not yet their destinations (`Carried`); running the heads of the block
makes up for it. At the end of a block the carriers of every successor hold the operands
that the successor's phis read (`run_block`): an early copy reads its operand in front of
the statement that throws, which leaves it alone because the handler could not read it
otherwise (`operand_outlives`).
-/
import Restack.Proofs.Ir.Run
import Restack.Proofs.Ir.Throwing
import Restack.Proofs.Pass.PhiCopies

namespace Restack.Pass

open List Ir

variable {V : Type} {w : World V}

/-! ## Running copies -/

/-- Copies of which none reads what another one writes act at once. -/
lemma stmts_moves (moves : List (Local × Value)) (st : State V)
    (apart : ∀ o ∈ moves, ∀ l, o.2 = .var l → l ∉ moves.map (·.1))
    (consistent : ∀ o ∈ moves, ∀ o' ∈ moves, o.1 = o'.1 → o.2 = o'.2) :
    ∃ st', w.stmts st (moves.map fun o => .assign o.1 (.value o.2)) = (st', none) ∧
      st'.caught = st.caught ∧ st'.trace = st.trace ∧ (∀ o ∈ moves, st'.env o.1 = w.value st.env o.2) ∧
      ∀ l, l ∉ moves.map (·.1) → st'.env l = st.env l := by
  induction moves generalizing st with
  | nil => exact ⟨st, rfl, rfl, rfl, by simp, by simp⟩
  | cons o moves ih =>
    obtain ⟨st', ran, caught, trace, moved, kept⟩ := ih (st.set o.1 (w.value st.env o.2))
      (fun o' mem l reads inside =>
        apart o' (mem_cons_of_mem _ mem) l reads (mem_cons_of_mem _ inside))
      (fun o' mem o'' mem' same =>
        consistent o' (mem_cons_of_mem _ mem) o'' (mem_cons_of_mem _ mem') same)
    have first : w.stmt st (.assign o.1 (.value o.2)) = (st.set o.1 (w.value st.env o.2), none) :=
      World.stmt_calm st rfl
    have reads (o' : Local × Value) (mem : o' ∈ o :: moves) :
        w.value (st.set o.1 (w.value st.env o.2)).env o'.2 = w.value st.env o'.2 := by
      cases value : o'.2 with
      | const c => rfl
      | var l =>
        have ne : l ≠ o.1 := fun same => apart o' mem l value (by simp [same])
        simp [World.value, ne]
    refine ⟨st', ?_, caught, trace, fun o' mem => ?_, fun l outside => ?_⟩
    · exact ran
    · by_cases again : o'.1 ∈ moves.map (·.1)
      · obtain ⟨o'', inside, same⟩ := mem_map.1 again
        rw [← same, moved o'' inside, reads o'' (mem_cons_of_mem _ inside),
          consistent o'' (mem_cons_of_mem _ inside) o' mem same]
      · rcases mem_cons.1 mem with rfl | later
        · rw [kept _ again]
          simp
        · exact absurd (mem_map_of_mem later) again
    · rw [map_cons, mem_cons, not_or] at outside
      rw [kept l outside.2]
      simp [outside.1]

/-! ## Carriers -/

variable {m : Method} {b t : BlockId} {block : Block}

section Carriers

variable {p q : Phi}

lemma carrier_fresh {l d} (bound : l.index < m.locals.size) : l ≠ carrier m d := by
  rintro rfl
  exact absurd bound (Nat.not_lt.2 (Nat.le_add_right _ _))

lemma mem_dstsOf_layout (loose : m.Loose) (there : m.block? t = some block) (phi : p ∈ block.phis) :
    p.dst ∈ dstsOf m m.layout := by
  refine mem_flatMap.2 ⟨t, (loose.mem_layout t).2 (by rw [there]; rfl), ?_⟩
  rw [Method.phisOf_eq there]
  exact mem_map_of_mem phi

lemma phi_of_carrier (loose : m.Loose) {c block'} (here : m.block? b = some block)
    (there : m.block? c = some block') (phi : p ∈ block.phis) (phi' : q ∈ block'.phis)
    (same : carrier m p.dst = carrier m q.dst) : b = c ∧ p = q := by
  rw [carrier, carrier, Local.mk.injEq, Nat.add_left_cancel_iff,
    idxOf_inj (mem_dstsOf_layout loose here phi)] at same
  obtain rfl := loose.defs_apart b c block block' p.dst here there
    (mem_append_left _ (mem_map_of_mem phi))
    (mem_append_left _ (same ▸ mem_map_of_mem phi'))
  rw [here] at there
  cases there
  have distinct := (loose.block_defs b block here).sublist (sublist_append_left _ _)
  exact ⟨rfl, inj_on_of_nodup_map distinct phi phi' same⟩

lemma mem_copies (loose : m.Loose) {c} : c ∈ copiesOf m ↔
    ∃ block p, m.block? c.target = some block ∧ p ∈ block.phis ∧ (c.source, c.value) ∈ p.operands ∧
      c.carrier = carrier m p.dst := by
  constructor
  · intro mem
    obtain ⟨t, -, into⟩ := mem_flatMap.1 mem
    obtain ⟨p, phi, among⟩ := mem_flatMap.1 into
    obtain ⟨o, operand, rfl⟩ := mem_map.1 among
    obtain ⟨block, there, phi⟩ := Method.mem_phisOf phi
    exact ⟨block, p, there, phi, operand, rfl⟩
  · rintro ⟨block, p, there, phi, operand, same⟩
    refine mem_flatMap.2 ⟨c.target, (loose.mem_layout _).2 (by rw [there]; rfl), ?_⟩
    refine mem_flatMap.2 ⟨p, Method.phisOf_eq there ▸ phi, ?_⟩
    exact mem_map.2 ⟨_, operand, by rw [← same]⟩

/-- What an exceptional edge takes along is defined in front of what throws. -/
lemma operand_outlives (loose : m.Loose) {passed} (entered : m.Enters b passed)
    (here : m.block? b = some block) {before rest s}
    (split : block.stmts = before ++ s :: rest) (throws : s.canThrow = true)
    (caught : t ∈ m.exceptionalSuccessors b) {target} (there : m.block? t = some target)
    (phi : p ∈ target.phis) {l} (operand : (b, .var l) ∈ p.operands) : l ∉ defined (s :: rest) := by
  intro later
  have mine : l ∈ defined block.stmts := by
    rw [split, defined_append]
    exact mem_append_right _ later
  -- on the first visit only the statements in front can have defined it
  obtain ⟨first, visit, clean⟩ := Method.Reached.unpassed ⟨passed, entered⟩
    (fun c block' there among => loose.defs_apart c b block' block l there here
      (mem_append_right _ among) (mem_append_right _ mine))
    fun c block' there phi => loose.phi_apart there here phi mine
  have read := loose.uses b first block before l visit here
    (.phi (.raise split throws caught) there phi operand)
  rcases mem_append.1 read with front | earlier
  · have distinct := (loose.block_defs b block here).sublist (sublist_append_right _ _)
    rw [split, defined_append] at distinct
    exact (nodup_append.1 distinct).2.2 l front l later rfl
  · exact clean earlier

lemma copy_reads (sound : m.Sound) (here : m.block? b = some block) {c} (copy : c ∈ copiesOf m)
    (source : c.source = b) {l} (value : c.value = .var l) : ∃ before, m.Reads b block before (.var l) := by
  obtain ⟨target, p, there, phi, operand, -⟩ := (mem_copies sound.toLoose).1 copy
  rw [source, value] at operand
  have edge := sound.phis_edge c.target target p b there phi (mem_map_of_mem operand)
  obtain ⟨before, leaves⟩ := (Method.edge_iff_leaves here).1 edge
  exact ⟨before, .phi leaves there phi operand⟩

end Carriers

/-! ## Running a block -/

/-- States on the way into a block: the new method has the values of the block's
phis in their carriers. -/
structure Carried (m : Method) (b : BlockId) (passed : List Local) (st st' : State V) : Prop where
  caught : st'.caught = st.caught
  trace : st'.trace = st.trace
  env : ∀ l ∈ passed, l ∉ (m.phisOf b).map (·.dst) → st'.env l = st.env l
  carriers : ∀ p ∈ m.phisOf b, p.dst ∈ passed → st'.env (carrier m p.dst) = st.env p.dst

section Running

variable {passed : List Local} {st st' : State V}
  (sound : m.Sound) (entered : m.Enters b passed) (here : m.block? b = some block)

include sound entered here

lemma run_copies (cs : List Copy) (sources : ∀ c ∈ cs, c ∈ copiesOf m ∧ c.source = b)
    (st : State V) : ∃ st', w.stmts st (cs.map Copy.stmt) = (st', none) ∧
      (∀ c ∈ cs, st'.env c.carrier = w.value st.env c.value) ∧
      (∀ l, (∀ c ∈ cs, l ≠ c.carrier) → st'.env l = st.env l) ∧
      Agree (fun l => l.index < m.locals.size) st st' := by
  have moves : cs.map Copy.stmt =
      (cs.map fun c => (c.carrier, c.value)).map fun o => .assign o.1 (.value o.2) := by
    rw [map_map]
    rfl
  have fresh {c : Copy} (mem : c ∈ cs) {l : Local} (bound : l.index < m.locals.size) :
      l ≠ c.carrier := by
    obtain ⟨_, p, -, -, -, same⟩ := (mem_copies sound.toLoose).1 (sources c mem).1
    exact same ▸ carrier_fresh bound
  obtain ⟨u, ran, caught, trace, moved, kept⟩ := stmts_moves (w := w)
    (cs.map fun c => (c.carrier, c.value)) st
    (by
      intro o mem l reads inside
      obtain ⟨c, among, rfl⟩ := mem_map.1 mem
      obtain ⟨_, among', rfl⟩ := mem_map.1 inside
      obtain ⟨c', among'', rfl⟩ := mem_map.1 among'
      obtain ⟨copy, source⟩ := sources c among
      obtain ⟨before, reads⟩ := copy_reads sound here copy source reads
      exact fresh among'' (sound.read_bound entered here reads) rfl)
    (by
      intro o mem o' mem' same
      obtain ⟨c, among, rfl⟩ := mem_map.1 mem
      obtain ⟨c', among', rfl⟩ := mem_map.1 mem'
      obtain ⟨copy, source⟩ := sources c among
      obtain ⟨copy', source'⟩ := sources c' among'
      obtain ⟨target, p, there, phi, operand, carried⟩ := (mem_copies sound.toLoose).1 copy
      obtain ⟨target', p', there', phi', operand', carried'⟩ := (mem_copies sound.toLoose).1 copy'
      obtain ⟨-, rfl⟩ := phi_of_carrier sound.toLoose there there' phi phi'
        (carried ▸ carried' ▸ same)
      rw [source] at operand
      rw [source'] at operand'
      have once := sound.phis_nodup _ _ p there phi
      exact (Prod.mk.inj (inj_on_of_nodup_map once operand operand' rfl)).2)
  rw [← moves] at ran
  refine ⟨u, ran, fun c mem => moved _ (mem_map_of_mem mem), fun l other => kept l ?_,
    caught, trace, fun l bound => kept l ?_⟩
  · intro inside
    obtain ⟨_, among, rfl⟩ := mem_map.1 inside
    obtain ⟨c, mem, rfl⟩ := mem_map.1 among
    exact other c mem rfl
  · intro inside
    obtain ⟨_, among, rfl⟩ := mem_map.1 inside
    obtain ⟨c, mem, rfl⟩ := mem_map.1 among
    exact fresh mem bound rfl

omit entered in
lemma carrier_undefined {stmts : List Stmt} (part : ∀ l ∈ defined stmts, l ∈ defined block.stmts)
    (d : Local) : carrier m d ∉ defined stmts := fun mem =>
  carrier_fresh (sound.bound b block _ here (mem_append_right _ (part _ mem))) rfl

omit entered in
/-- Behind the heads of a block the states agree again. -/
lemma run_heads (carried : Carried m b passed st st') :
    ∃ u u', w.stmts st (caughtHead block.stmts) = (u, none) ∧
      w.stmts st' (caughtHead block.stmts ++ headsOf m b) = (u', none) ∧
      Agree (fun l => l ∈ defined (caughtHead block.stmts) ++ passed) u u' := by
  have part : ∀ l ∈ defined (caughtHead block.stmts), l ∈ defined block.stmts := by
    intro l mem
    rw [← caughtHead_append block.stmts, defined_append]
    exact mem_append_left _ mem
  have phis := Method.phisOf_eq here
  have agree : Agree (fun l => l ∈ passed ∧ l ∉ (m.phisOf b).map (·.dst)) st st' :=
    ⟨carried.caught, carried.trace, fun l mem => carried.env l mem.1 mem.2⟩
  obtain ⟨u, u₁, r, ran, ran', -, agree₁⟩ := agree.stmts (w := w) (caughtHead block.stmts)
    fun before s rest split l read => by
      rcases caughtHead_cases block.stmts with ⟨k, same⟩ | ⟨same, -⟩ <;> rw [same] at split
      · obtain ⟨rfl, rfl, -⟩ : before = [] ∧ s = .assign k .caught ∧ rest = [] := by
          cases before <;> simp_all
        cases read
      · simp at split
  obtain ⟨_, calm⟩ := World.stmts_calm (w := w) st (caughtHead_calm block.stmts)
  obtain rfl : r = none := (Prod.mk.inj (ran.symm.trans calm)).2
  have agree₁ := agree₁ rfl
  -- the destinations are none of the block's statements, and the carriers are new
  have dst (p : Phi) (phi : p ∈ m.phisOf b) : u.env p.dst = st.env p.dst := by
    have apart : p.dst ∉ defined (caughtHead block.stmts) := fun mem =>
      sound.phi_apart here here (mem_map_of_mem (phis ▸ phi)) (part _ mem)
    have := World.stmts_env (w := w) st apart
    rwa [ran] at this
  have carrying (d : Local) : u₁.env (carrier m d) = st'.env (carrier m d) := by
    have := World.stmts_env (w := w) st' (carrier_undefined sound here part d)
    rwa [ran'] at this
  have bound (p : Phi) (phi : p ∈ m.phisOf b) : p.dst.index < m.locals.size :=
    sound.bound b block _ here (mem_append_left _ (mem_map_of_mem (phis ▸ phi)))
  obtain ⟨u', ran'', caught, trace, moved, kept⟩ := stmts_moves (w := w)
    ((m.phisOf b).map fun p => (p.dst, .var (carrier m p.dst))) u₁
    (by
      intro o mem l reads inside
      obtain ⟨p, -, rfl⟩ := mem_map.1 mem
      cases reads
      rw [map_map] at inside
      obtain ⟨q, phi, same⟩ := mem_map.1 inside
      exact carrier_fresh (bound q phi) same)
    (by
      intro o mem o' mem' same
      obtain ⟨p, -, rfl⟩ := mem_map.1 mem
      obtain ⟨q, -, rfl⟩ := mem_map.1 mem'
      simp only at same ⊢
      rw [same])
  rw [map_map] at ran'' kept
  refine ⟨u, u', ran, (World.stmts_append_none _ ran').trans ran'', ?_, ?_, fun l mem => ?_⟩
  · exact caught.trans agree₁.caught
  · exact trace.trans agree₁.trace
  · by_cases phi : l ∈ (m.phisOf b).map (·.dst)
    · obtain ⟨p, among, rfl⟩ := mem_map.1 phi
      have passing : p.dst ∈ passed := (mem_append.1 mem).resolve_left fun mine =>
        sound.phi_apart here here (mem_map_of_mem (phis ▸ among)) (part _ mine)
      rw [moved _ (mem_map_of_mem among), dst p among, ← carried.carriers p among passing]
      exact carrying p.dst
    · rw [kept l phi]
      exact agree₁.env l ((mem_append.1 mem).symm.imp (fun old => ⟨old, phi⟩) id)

/-- A part of a block runs alike from states that agree on what the code up to it defines. -/
lemma run_part {before part rest} (whole : block.stmts = before ++ part ++ rest)
    (agree : Agree (fun l => l ∈ defined before ++ passed) st st') :
    ∃ u u' r, w.stmts st part = (u, r) ∧ w.stmts st' part = (u', r) ∧ u'.trace = u.trace ∧
      (r = none → Agree (fun l => l ∈ defined (before ++ part) ++ passed) u u') := by
  obtain ⟨u, u', r, ran, ran', trace, agree'⟩ := agree.stmts (w := w) part
    fun front s back split l read => by
      have here' : block.stmts = before ++ front ++ s :: (back ++ rest) := by simp [whole, split]
      have passes := sound.uses b passed block _ l entered here (.stmt here' read)
      rw [defined_append, mem_append, mem_append] at passes
      rw [mem_append]
      tauto
  refine ⟨u, u', r, ran, ran', trace, fun calm => (agree' calm).mono fun l mem => ?_⟩
  rw [defined_append, mem_append, mem_append] at mem
  rw [mem_append]
  tauto

/-- The statements in front of the last one that can throw. -/
abbrev frontOf (block : Block) : List Stmt := (splitAtThrow (behindCaught block.stmts)).1

abbrev backOf (block : Block) : List Stmt := (splitAtThrow (behindCaught block.stmts)).2

omit sound entered here in
lemma stmts_eq (block : Block) : block.stmts = caughtHead block.stmts ++ frontOf block ++ backOf block := by
  rw [append_assoc, splitAtThrow_append, caughtHead_append]

omit entered in
/-- What an early copy reads goes along an exceptional edge out of the last statement
that can throw. -/
lemma mem_earlyCopies {c : Copy} (mem : c ∈ earlyCopies m (copiesOf m) b block) :
    c ∈ copiesOf m ∧ c.source = b ∧ ∃ s rest target p, backOf block = s :: rest ∧ s.canThrow = true ∧
      c.target ∈ m.exceptionalSuccessors b ∧ m.block? c.target = some target ∧ p ∈ target.phis ∧
      (b, c.value) ∈ p.operands := by
  obtain ⟨copy, from_⟩ := mem_filter.1 mem
  obtain ⟨source, early⟩ := Bool.and_eq_true_iff.1 from_
  obtain ⟨caught, s, rest, back, raises, -⟩ := goesEarly_throws here early
  obtain ⟨target, p, there, phi, operand, -⟩ := (mem_copies sound.toLoose).1 copy
  rw [eq_of_beq source] at operand
  exact ⟨copy, eq_of_beq source, s, rest, target, p, back, raises, caught, there, phi, operand⟩

omit entered in
lemma early_reads {c : Copy} (mem : c ∈ earlyCopies m (copiesOf m) b block) {l : Local}
    (value : c.value = .var l) : m.Reads b block (caughtHead block.stmts ++ frontOf block) (.var l) := by
  obtain ⟨-, -, s, rest, target, p, back, throws, caught, there, phi, operand⟩ :=
    mem_earlyCopies sound here mem
  exact .phi (.raise (back ▸ stmts_eq block) throws caught) there phi (value ▸ operand)

lemma early_outlives {c} (mem : c ∈ earlyCopies m (copiesOf m) b block) {l}
    (value : c.value = .var l) : l ∉ defined (backOf block) := by
  obtain ⟨-, -, s, rest, target, p, back, throws, caught, there, phi, operand⟩ :=
    mem_earlyCopies sound here mem
  rw [back]
  exact operand_outlives sound.toLoose entered here (back ▸ stmts_eq block) throws caught there phi
    (value ▸ operand)

/-- Up to the last statement that can throw a block does the same with heads and
early copies. -/
lemma run_front (carried : Carried m b passed st st') :
    (∃ u u' x, w.stmts st (caughtHead block.stmts ++ frontOf block) = (u, some x) ∧
      w.stmts st' (caughtHead block.stmts ++ headsOf m b ++ frontOf block) = (u', some x) ∧
      u'.trace = u.trace) ∨ ∃ u u', w.stmts st (caughtHead block.stmts ++ frontOf block) = (u, none) ∧
      w.stmts st' (caughtHead block.stmts ++ headsOf m b ++ frontOf block ++
        (earlyCopies m (copiesOf m) b block).map Copy.stmt) = (u', none) ∧
      Agree (fun l => l ∈ defined (caughtHead block.stmts ++ frontOf block) ++ passed) u u' ∧
      ∀ c ∈ earlyCopies m (copiesOf m) b block, u'.env c.carrier = w.value u.env c.value := by
  obtain ⟨u₀, u₀', ran₀, ran₀', agree₀⟩ := run_heads (w := w) sound here carried
  obtain ⟨u, u', r, ran, ran', trace, agree⟩ :=
    run_part (w := w) sound entered here (stmts_eq block) agree₀
  cases r with
  | some x =>
    refine .inl ⟨u, u', x, ?_, ?_, trace⟩
    · exact (World.stmts_append_none _ ran₀).trans ran
    · exact (World.stmts_append_none _ ran₀').trans ran'
  | none =>
    have agree := agree rfl
    obtain ⟨u₁, copied, moved, -, bounded⟩ := run_copies (w := w) sound entered here
      (earlyCopies m (copiesOf m) b block)
      (fun c mem => ⟨(mem_earlyCopies sound here mem).1, (mem_earlyCopies sound here mem).2.1⟩) u'
    have bound (l : Local) (mem : l ∈ defined (caughtHead block.stmts ++ frontOf block) ++ passed) :
        l.index < m.locals.size := by
      refine sound.passed_bound entered here ?_
      rw [stmts_eq block, defined_append]
      exact mem_append.2 ((mem_append.1 mem).imp (mem_append_left _) id)
    refine .inr ⟨u, u₁, (World.stmts_append_none _ ran₀).trans ran, ?_, ?_, fun c mem => ?_⟩
    · rw [World.stmts_append_none _ ((World.stmts_append_none _ ran₀').trans ran')]
      exact copied
    · exact ⟨bounded.caught.trans agree.caught, bounded.trace.trans agree.trace, fun l mem =>
        (bounded.env l (bound l mem)).trans (agree.env l mem)⟩
    · rw [moved c mem]
      exact agree.value fun l value => sound.uses b passed block _ l entered here
        (early_reads sound here mem value)

/-- Behind the late copies every carrier holds its operand. -/
lemma run_late {u u' v v'}
    (moved : ∀ c ∈ earlyCopies m (copiesOf m) b block, u'.env c.carrier = w.value u.env c.value)
    (back : w.stmts u (backOf block) = (v, none)) (back' : w.stmts u' (backOf block) = (v', none))
    (agree : Agree (fun l => l ∈ defined block.stmts ++ passed) v v') :
    ∃ v'', w.stmts u' (backOf block ++ (lateCopies m (copiesOf m) b block).map Copy.stmt) = (v'', none) ∧
      Agree (fun l => l ∈ defined block.stmts ++ passed) v v'' ∧
      ∀ c ∈ copiesOf m, c.source = b → v''.env c.carrier = w.value v.env c.value := by
  have part : ∀ l ∈ defined (backOf block), l ∈ defined block.stmts := by
    intro l mem
    rw [stmts_eq block, defined_append]
    exact mem_append_right _ mem
  have mem_late {c : Copy} : c ∈ lateCopies m (copiesOf m) b block ↔
      c ∈ copiesOf m ∧ c.source = b ∧ goesEarly m b block c.target = false := by
    simp [lateCopies, mem_filter]
  obtain ⟨v'', late, copied, kept, bounded⟩ := run_copies (w := w) sound entered here
    (lateCopies m (copiesOf m) b block)
    (fun c mem => ⟨(mem_late.1 mem).1, (mem_late.1 mem).2.1⟩) v'
  refine ⟨v'', (World.stmts_append_none _ back').trans late, ?_, fun c copy source => ?_⟩
  · exact ⟨bounded.caught.trans agree.caught, bounded.trace.trans agree.trace, fun l mem =>
      (bounded.env l (sound.passed_bound entered here mem)).trans (agree.env l mem)⟩
  cases place : goesEarly m b block c.target with
  | false =>
    rw [copied c (mem_late.2 ⟨copy, source, place⟩)]
    refine agree.value fun l value => ?_
    obtain ⟨before, reads⟩ := copy_reads sound here copy source value
    have read := sound.uses b passed block before l entered here reads
    obtain ⟨rest, split⟩ := reads.split
    rw [split, defined_append]
    exact mem_append.2 ((mem_append.1 read).imp (mem_append_left _) id)
  | true =>
    obtain ⟨target, p, there, phi, -, carried⟩ := (mem_copies sound.toLoose).1 copy
    have early : c ∈ earlyCopies m (copiesOf m) b block := by
      simp [earlyCopies, mem_filter, copy, source, place]
    -- late copies assign other carriers, and what the early one read is as it was
    have alone : ∀ c' ∈ lateCopies m (copiesOf m) b block, c.carrier ≠ c'.carrier := by
      intro c' mem same
      obtain ⟨copy', -, late⟩ := mem_late.1 mem
      obtain ⟨target', p', there', phi', -, carried'⟩ := (mem_copies sound.toLoose).1 copy'
      have := (phi_of_carrier sound.toLoose there there' phi phi' (by rw [← carried, ← carried', same])).1
      rw [← this, place] at late
      cases late
    have quiet := World.stmts_env (w := w) u' (carrier_undefined sound here part p.dst)
    rw [back', ← carried] at quiet
    rw [kept _ alone, quiet, moved c early]
    cases value : c.value with
    | const k => rfl
    | var l =>
      have still := World.stmts_env (w := w) u (early_outlives sound entered here early value)
      rw [back] at still
      exact still.symm

/-- With its copies a block does the same as with phis. At the end all carriers
that its successors read are assigned; where a block under a trap throws, those
that handlers read are. -/
lemma run_block (once : m.ThrowsOnce) (carried : Carried m b passed st st') :
    (∃ u u', w.stmts st block.stmts = (u, none) ∧ w.stmts st' (spreadBlock m b block).stmts = (u', none) ∧
      Agree (fun l => l ∈ defined block.stmts ++ passed) u u' ∧
      ∀ c ∈ copiesOf m, c.source = b → u'.env c.carrier = w.value u.env c.value) ∨
    ∃ u u' x, w.stmts st block.stmts = (u, some x) ∧
      w.stmts st' (spreadBlock m b block).stmts = (u', some x) ∧ u'.trace = u.trace ∧
      (m.isCovered b = true → ∃ before s rest, block.stmts = before ++ s :: rest ∧
        s.canThrow = true ∧ Agree (fun l => l ∈ defined before ++ passed) u u' ∧
        ∀ c ∈ copiesOf m, c.source = b → c.target ∈ m.exceptionalSuccessors b →
          u'.env c.carrier = w.value u.env c.value) := by
  have new : (spreadBlock m b block).stmts = caughtHead block.stmts ++ headsOf m b ++ frontOf block ++
      (earlyCopies m (copiesOf m) b block).map Copy.stmt ++ (backOf block ++
        (lateCopies m (copiesOf m) b block).map Copy.stmt) := by
    simp [spreadBlock]
  rcases run_front (w := w) sound entered here carried with
    ⟨u, u', x, ran, ran', trace⟩ | ⟨u, u', ran, ran', agree, moved⟩
  · refine .inr ⟨u, u', x, ?_, ?_, trace, fun covered => ?_⟩
    · rw [stmts_eq block]
      exact World.stmts_append_some _ ran
    · rw [new, append_assoc _ _ (backOf block ++ _)]
      exact World.stmts_append_some _ ran'
    -- in a block under a trap only the last statement throws
    · obtain ⟨before, s, rest, _, split, -, raised⟩ := World.stmts_raise ran
      have throws := (World.stmt_raise raised).1
      have whole : block.stmts = before ++ s :: (rest ++ backOf block) := by
        conv_lhs => rw [stmts_eq block, split]
        simp
      have last := ((once b block covered here).alone whole throws).2.1
      rcases splitAtThrow_cases (behindCaught block.stmts) with ⟨s', rest', back, -, -⟩ | ⟨-, calm⟩
      · rw [show backOf block = s' :: rest' from back] at last
        simp at last
      · have mem : s ∈ block.stmts := by rw [whole]; simp
        rw [← caughtHead_append block.stmts] at mem
        rcases mem_append.1 mem with first | later
        · rw [caughtHead_calm _ s first] at throws
          cases throws
        · rw [calm s later] at throws
          cases throws
  · have start : w.stmts st block.stmts = w.stmts u (backOf block) := by
      conv_lhs => rw [stmts_eq block]
      exact World.stmts_append_none _ ran
    have start' : w.stmts st' (spreadBlock m b block).stmts =
        w.stmts u' (backOf block ++ (lateCopies m (copiesOf m) b block).map Copy.stmt) := by
      rw [new]
      exact World.stmts_append_none _ ran'
    rw [start, start']
    have whole := stmts_eq block
    obtain ⟨v, v', r, back, back', trace, agree'⟩ :=
      run_part (w := w) sound entered here (whole.trans (append_nil _).symm) agree
    cases r with
    | none =>
      rw [← whole] at agree'
      obtain ⟨v'', late, agree'', handed⟩ := run_late sound entered here moved back back' (agree' rfl)
      exact .inl ⟨v, v'', back, late, agree'', handed⟩
    | some x =>
      refine .inr ⟨v, v', x, back, World.stmts_append_some _ back', trace, fun covered => ?_⟩
      rcases splitAtThrow_cases (behindCaught block.stmts) with ⟨s, rest, first, throws, calm⟩ | ⟨none_, -⟩
      · rw [show backOf block = s :: rest from first] at whole back back'
        obtain ⟨-, env, caught⟩ := World.stmt_raise (World.stmts_raise_first calm back)
        obtain ⟨-, env', caught'⟩ := World.stmt_raise (World.stmts_raise_first calm back')
        refine ⟨_, s, rest, whole, throws, ⟨?_, trace, fun l mem => ?_⟩, fun c copy source goes => ?_⟩
        · rw [caught, caught', agree.caught]
        · rw [env, env', agree.env l mem]
        · have alone := ((once b block covered here).alone whole throws).2.2
          rw [env, env']
          exact moved c (by simp [earlyCopies, mem_filter, copy, source, goesEarly, goes, alone])
      · rw [show backOf block = [] from none_] at back
        cases back

/-- Leaving a block is the same with copies, and the carriers of the block that
control goes to are assigned. -/
lemma leave_spread {m' : Method} (traps : m'.traps = m.traps) (once : m.ThrowsOnce)
    (carried : Carried m b passed st st') : (∃ e trace, m.leave w b block st = .ends e trace ∧
      m'.leave w b (spreadBlock m b block) st' = .ends e trace) ∨
    ∃ t u u' before, m.leave w b block st = .moves t u ∧
      m'.leave w b (spreadBlock m b block) st' = .moves t u' ∧ m.Leaves b block before t ∧
      Agree (fun l => l ∈ defined before ++ passed) u u' ∧
      ∀ c ∈ copiesOf m, c.source = b → c.target = t → u'.env c.carrier = w.value u.env c.value := by
  have same (x : V) (v : State V) : m'.raise w b v x = m.raise w b v x := by
    rw [Method.raise, Method.raise, Method.handlersOf, Method.handlersOf, traps]
  have covers {t : BlockId} (leads : ∃ trap ∈ m.traps, b ∈ trap.covered ∧ ∃ h ∈ trap.handlers, h.target = t) :
      m.isCovered b = true := by
    obtain ⟨trap, mem, covered, -⟩ := leads
    exact Method.isCovered_iff.2 ⟨trap, mem, covered⟩
  rcases run_block (w := w) sound entered here once carried with
    ⟨u, u', ran, ran', agree, handed⟩ | ⟨u, u', x, ran, ran', trace, caught⟩
  · have exits := agree.exit (w := w) (t := block.terminator) fun l read =>
      sound.uses b passed block _ l entered here (.terminator read)
    simp only [Method.leave, ran, ran', show (spreadBlock m b block).terminator = block.terminator from rfl,
      exits]
    cases exit : w.exit u block.terminator with
    | goto t =>
      exact .inr ⟨t, u, u', block.stmts, rfl, rfl, .jump (World.exit_mem exit), agree,
        fun c copy source _ => handed c copy source⟩
    | raise x =>
      simp only [same]
      have throws := World.exit_raise exit
      rcases Method.raise_cases m w b x with ⟨t, leads, goes⟩ | escapes
      · have caught : t ∈ m.exceptionalSuccessors b :=
          (Method.mem_exceptionalSuccessors here).2 ⟨by rw [Block.canThrow, throws, Bool.or_true], leads⟩
        exact .inr ⟨t, _, _, block.stmts, goes u, goes u', .throw throws caught, agree.catching x,
          fun c copy source _ => handed c copy source⟩
      · exact .inl ⟨_, _, escapes u, by rw [escapes u', agree.trace]⟩
    | ret v => exact .inl ⟨_, _, rfl, by rw [agree.trace]⟩
  · simp only [Method.leave, ran, ran', same]
    rcases Method.raise_cases m w b x with ⟨t, leads, goes⟩ | escapes
    · obtain ⟨before, s, rest, split, throws, agree, handed⟩ := caught (covers leads)
      have caught : t ∈ m.exceptionalSuccessors b := by
        refine (Method.mem_exceptionalSuccessors here).2 ⟨?_, leads⟩
        rw [Block.canThrow, Bool.or_eq_true, any_eq_true]
        exact .inl ⟨s, by rw [split]; simp, throws⟩
      exact .inr ⟨t, _, _, before, goes u, goes u', .raise split throws caught, agree.catching x,
        fun c copy source target => handed c copy source (target ▸ caught)⟩
    · exact .inl ⟨_, _, escapes u, by rw [escapes u', trace]⟩

omit entered in
lemma Carried.next {u u' : State V} {before : List Stmt} {target : Block}
    (there : m.block? t = some target) (leaves : m.Leaves b block before t)
    (agree : Agree (fun l => l ∈ defined before ++ passed) u u')
    (handed : ∀ c ∈ copiesOf m, c.source = b → c.target = t → u'.env c.carrier = w.value u.env c.value) :
    Carried m t (target.phis.map (·.dst) ++ (defined before ++ passed))
      (w.assignPhis b (m.phisOf t) u) u' := by
  have phis := Method.phisOf_eq there
  refine ⟨agree.caught, agree.trace, fun l mem other => ?_, fun p phi _ => ?_⟩
  · rw [World.assignPhis_other other]
    rw [phis] at other
    exact agree.env l ((mem_append.1 mem).resolve_left other)
  · rw [phis] at phi ⊢
    have covered := sound.phis_cover t target p b there phi (leaves.edge here)
    obtain ⟨⟨_, v⟩, operand, rfl⟩ := mem_map.1 covered
    have distinct := (sound.block_defs t target there).sublist (sublist_append_left _ _)
    rw [World.assignPhis_dst distinct phi (sound.phis_nodup t target p there phi) operand]
    exact handed ⟨_, t, carrier m p.dst, v⟩
      ((mem_copies sound.toLoose).2 ⟨target, p, there, phi, operand, rfl⟩) rfl rfl

end Running

/-! ## Running a method -/

lemma runFrom_replacePhis (sound : m.Sound) (once : m.ThrowsOnce) (n : Nat) {b passed st st'}
    (entered : m.Enters b passed)
    (carried : Carried m b passed st st') : (replacePhis m).1.runFrom w n b st' = m.runFrom w n b st := by
  have traps := (replacePhis_replaced (dstsOf_nodup sound.toLoose) sound.layout_nodup).woven.traps
  induction n generalizing b passed st st' with
  | zero => simp only [Method.runFrom, carried.trace]
  | succ n ih =>
    simp only [Method.runFrom, block?_replacePhis sound.toLoose]
    cases here : m.block? b with
    | none => simp only [Option.map_none, carried.trace]
    | some block =>
      simp only [Option.map_some]
      rcases leave_spread (w := w) sound entered here traps once carried with
        ⟨e, trace, left, left'⟩ | ⟨t, u, u', before, left, left', leaves, agree, handed⟩
      · simp only [left, left']
      · have exists_ := sound.edges b t (leaves.edge here)
        obtain ⟨target, there⟩ := Option.isSome_iff_exists.1 exists_
        have none_ : (replacePhis m).1.phisOf t = [] := by
          rw [Method.phisOf, block?_replacePhis sound.toLoose, there]
          rfl
        simp only [left, left', none_]
        exact ih (.next entered here leaves there)
          (Carried.next sound here there leaves agree handed)

/-- Copies do what phis do: whatever the world answers, the method without phis
runs like the one with them, one block after the other. Nor do copies come in
front of the read of a caught exception. -/
theorem replacePhis_runs (valid : m.Valid) (once : m.ThrowsOnce)
    (bound : ∀ l ∈ m.defs, l.index < m.locals.size) :
    (∀ (V : Type) (w : World V) (st : State V) (n : Nat), (replacePhis m).1.run w n st = m.run w n st) ∧
    (∀ b block, (replacePhis m).1.block? b = some block → block.phis = []) ∧
    ∀ b block l rest, m.block? b = some block → block.stmts = .assign l .caught :: rest →
      ∃ block', (replacePhis m).1.block? b = some block' ∧
        block'.stmts.head? = some (.assign l .caught) := by
  have sound := valid.sound bound
  have entry := (replacePhis_replaced (dstsOf_nodup sound.toLoose) sound.layout_nodup).woven.entry
  refine ⟨fun V w st n => ?_, fun b block here => ?_, fun b block l rest here first => ?_⟩
  · rw [Method.run, Method.run, entry]
    exact runFrom_replacePhis sound once n .start ⟨rfl, rfl, by simp, by simp⟩
  · rw [block?_replacePhis sound.toLoose, Option.map_eq_some_iff] at here
    obtain ⟨_, -, rfl⟩ := here
    rfl
  · refine ⟨_, by rw [block?_replacePhis sound.toLoose, here]; rfl, ?_⟩
    rw [spreadBlock, first]
    rfl

/-- A loop that swaps two locals around a guarded call and leaves for its handler
both with and without an exception; the handler has a phi and reads what it caught. -/
def swapLoop : Method where
  owner := "LSwap;"
  name := "run"
  descriptor := "(II)I"
  isStatic := true
  params := #["I", "I"]
  returnType := "I"
  blocks := #[some ⟨[], [.assign ⟨0⟩ (.param 0), .assign ⟨1⟩ (.param 1)], .goto ⟨1⟩⟩,
    some ⟨[⟨⟨2⟩, [(⟨0⟩, .var ⟨0⟩), (⟨1⟩, .var ⟨3⟩)]⟩, ⟨⟨3⟩, [(⟨0⟩, .var ⟨1⟩), (⟨1⟩, .var ⟨2⟩)]⟩],
      [.effect (.invoke .static ⟨"LSwap;", "see", "(II)V"⟩ [.var ⟨2⟩, .var ⟨3⟩])],
      .branch .eq (.var ⟨2⟩) (some (.var ⟨3⟩)) ⟨2⟩ ⟨1⟩⟩,
    some ⟨[⟨⟨4⟩, [(⟨1⟩, .var ⟨2⟩)]⟩], [.assign ⟨5⟩ .caught], .ret (some (.var ⟨4⟩))⟩]
  layout := [⟨0⟩, ⟨1⟩, ⟨2⟩]
  entry := ⟨0⟩
  traps := [⟨[⟨1⟩], [⟨none, ⟨2⟩⟩]⟩]
  locals := Array.replicate 6 .int

lemma swapLoop_valid : swapLoop.Valid :=
  Method.valid_of_near (by decide) (by decide) (by decide) (by decide) (by decide)

lemma swapLoop_throwsOnce : swapLoop.ThrowsOnce := by
  have each : ∀ e ∈ swapLoop.numbered,
      (e.2.stmts.map Stmt.canThrow).Pairwise (fun first _ => first = false) ∧
        (e.2.terminator.isThrow = true → true ∉ e.2.stmts.map Stmt.canThrow) := by decide
  intro b block _ here
  exact Block.throwsOnce_iff.2 (each (b, block) (Method.mem_numbered.2 here))

theorem swapLoop_runs : swapLoop.Valid ∧ swapLoop.ThrowsOnce ∧
    (∀ l ∈ swapLoop.defs, l.index < swapLoop.locals.size) ∧
    (∀ (V : Type) (w : World V) (st : State V) (n : Nat),
      (replacePhis swapLoop).1.run w n st = swapLoop.run w n st) ∧
    (∀ b block, (replacePhis swapLoop).1.block? b = some block → block.phis = []) ∧
    ∀ b block l rest, swapLoop.block? b = some block → block.stmts = .assign l .caught :: rest →
      ∃ block', (replacePhis swapLoop).1.block? b = some block' ∧
        block'.stmts.head? = some (.assign l .caught) := by
  have bound : ∀ l ∈ swapLoop.defs, l.index < swapLoop.locals.size := by decide
  exact ⟨swapLoop_valid, swapLoop_throwsOnce, bound,
    replacePhis_runs swapLoop_valid swapLoop_throwsOnce bound⟩

end Restack.Pass
