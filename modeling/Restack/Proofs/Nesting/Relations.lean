/-
# What the relations of a program hold

What relations say of a class does not depend on the numbers: its enclosing class is the outer
class of the last link that has it inside, its inner classes are those of all links that have it
outside, and the rest is what the classes of its name say of themselves. `Gathers` states this
for the classes read so far; each class that is read keeps it (`addClass_gathers`).
-/
import Mathlib.Logic.Function.Basic
import Restack.Nesting.Relations
import Restack.Proofs.Lookup

namespace Restack.Nesting

open List

open Register (MethodRef Program)

/-! ## What classes say -/

/-- Links from an inner to an outer class, in the order in which a class gives them; a class
is not linked to itself. -/
def links (c : Register.Class) : List (String × String) :=
  ((c.enclosingClass?.map (c.name, ·)).toList ++ (c.enclosingMethod?.map fun m => (c.name, m.owner)).toList ++
    c.memberClasses.map (·, c.name)).filter fun l => l.1 != l.2

/-- The classes that a class names where it describes its nesting, itself first. -/
def mentioned (c : Register.Class) : List String :=
  c.name :: (c.enclosingClass?.toList ++ (c.enclosingMethod?.map (·.owner)).toList ++ c.memberClasses)

/-- All that a class says of itself. -/
structure Own where
  access : UInt32 := 0
  enclosingMethod : Option MethodRef := none
  innerName : Option String := none
  hasItem : Bool := false
deriving DecidableEq

namespace Own

def addAccess (o : Own) (c : Register.Class) : Own :=
  { o with access := Access.Flags.without o.access Access.kindFlags ||| c.access }

def addEnclosingMethod (o : Own) (c : Register.Class) : Own :=
  match c.enclosingMethod? with
  | some method => if c.name = method.owner then o else { o with enclosingMethod := some method }
  | none => o

def addItem (o : Own) (c : Register.Class) : Own :=
  match c.innerClass? with
  | some item => { o with
      access := o.access ||| Access.Flags.without item.access Access.kindFlags
      innerName := item.name
      hasItem := true }
  | none => o

def add (o : Own) (c : Register.Class) : Own := ((o.addAccess c).addEnclosingMethod c).addItem c

end Own

/-- What the classes of a name say of themselves, one after the other. -/
def ownOf (classes : List Register.Class) (d : String) : Own :=
  (classes.filter (·.name == d)).foldl Own.add {}

def Entry.own (e : Entry) : Own := ⟨e.access, e.enclosingMethod, e.innerName, e.hasItem⟩

/-! ## Entries by number and by name -/

namespace Relations

variable {r : Relations} {d : String} {i j : ClassId} {e : Entry}

/-- No two entries have one name. -/
def Distinct (r : Relations) : Prop :=
  ∀ i j e e', r.entry? i = some e → r.entry? j = some e' → e.name = e'.name → i = j

lemma nameOf_eq (here : r.entry? i = some e) : r.nameOf i = e.name := by
  rw [nameOf, here]
  rfl

lemma find?_eq_none : r.find? d = none ↔ ∀ i e, r.entry? i = some e → e.name ≠ d := by
  rw [find?, Array.findIdx?_eq_none_iff]
  constructor
  · intro absent i e here same
    have := absent e (Array.mem_of_getElem? here)
    simp [same] at this
  · intro absent e mem
    obtain ⟨i, here⟩ := Array.mem_iff_getElem?.1 mem
    simpa using absent i e here

lemma find?_eq_some (distinct : r.Distinct) : r.find? d = some i ↔ ∃ e, r.entry? i = some e ∧ e.name = d := by
  constructor
  · intro found
    obtain ⟨inside, same, -⟩ := Array.findIdx?_eq_some_iff_getElem.1 found
    exact ⟨r.entries[i], Array.getElem?_eq_getElem inside, by simpa using same⟩
  · rintro ⟨e, here, named⟩
    cases found : r.find? d with
    | none => exact absurd named (find?_eq_none.1 found i e here)
    | some j =>
      obtain ⟨inside, same, -⟩ := Array.findIdx?_eq_some_iff_getElem.1 found
      have there : r.entry? j = some r.entries[j] := Array.getElem?_eq_getElem inside
      exact congrArg some (distinct j i _ e there here (by rw [named]; simpa using same))

lemma lookup?_eq_some (distinct : r.Distinct) :
    r.lookup? d = some e ↔ ∃ i, r.entry? i = some e ∧ e.name = d := by
  constructor
  · intro found
    obtain ⟨i, here⟩ := Array.mem_iff_getElem?.1 (Array.mem_of_find?_eq_some found)
    exact ⟨i, here, by simpa using Array.find?_some found⟩
  · rintro ⟨i, here, named⟩
    cases found : r.lookup? d with
    | none =>
      have absent := Array.find?_eq_none.1 found e (Array.mem_of_getElem? here)
      simp [named] at absent
    | some e' =>
      obtain ⟨j, there⟩ := Array.mem_iff_getElem?.1 (Array.mem_of_find?_eq_some found)
      have named' : e'.name = d := by simpa using Array.find?_some found
      obtain rfl := distinct i j e e' here there (named.trans named'.symm)
      exact there.symm.trans here

lemma lookup?_eq_none (absent : r.find? d = none) : r.lookup? d = none := by
  rw [find?, Array.findIdx?_eq_none_iff] at absent
  exact Array.find?_eq_none.2 fun e mem => by simp [absent e mem]

lemma entry?_modify (f : Entry → Entry) :
    Relations.entry? (r.modify i f) j = if i = j then (r.entry? j).map f else r.entry? j := by
  rw [ entry?, modify, Array.getElem?_modify]
  rfl

/-- The name of the class around a class. -/
def enclosing? (r : Relations) (d : String) : Option String :=
  (r.lookup? d).bind fun e => e.enclosing.map r.nameOf

/-- The names of the classes listed inside a class. -/
def innerNames (r : Relations) (d : String) : List String :=
  (r.lookup? d).elim [] fun e => e.inners.map r.nameOf

end Relations

/-! ## Links -/

/-- The class that the last link of a class leads to. -/
def lastOuter (ls : List (String × String)) (d : String) : Option String := ls.reverse.lookup d

lemma lastOuter_append_one (ls : List (String × String)) (inner outer d : String) :
    lastOuter (ls ++ [(inner, outer)]) d = if inner = d then some outer else lastOuter ls d := by
  rw [lastOuter, reverse_append]
  split
  · rename_i same
    rw [← same]
    exact lookup_cons_self
  · rename_i other
    exact Lookup.lookup_cons_ne (Ne.symm other)

lemma lastOuter_mem {ls d o} (found : lastOuter ls d = some o) : (d, o) ∈ ls :=
  mem_reverse.1 (Lookup.mem_of_lookup found)

lemma lastOuter_isSome {ls d o} (mem : (d, o) ∈ ls) : ∃ o', lastOuter ls d = some o' :=
  Lookup.lookup_isSome_of_mem (mem_map.2 ⟨_, mem_reverse.2 mem, rfl⟩)

/-! ## What relations gather -/

/-- Relations that hold certain names, links and what classes say of themselves. -/
structure Gathers (r : Relations) (names : List String) (ls : List (String × String))
    (own : String → Own) : Prop where
  distinct : r.Distinct
  known : ∀ d, d ∈ names ↔ ∃ i e, r.entry? i = some e ∧ e.name = d
  linked : ∀ l ∈ ls, l.1 ∈ names ∧ l.2 ∈ names
  unsaid : ∀ d, d ∉ names → own d = {}
  own : ∀ i e, r.entry? i = some e → e.own = own e.name
  enclosing : ∀ i e, r.entry? i = some e → e.enclosing.map r.nameOf = lastOuter ls e.name
  bound : ∀ i e o, r.entry? i = some e → e.enclosing = some o → ∃ e', r.entry? o = some e'
  inners : ∀ i e, r.entry? i = some e → ∀ k, k ∈ e.inners ↔
    ∃ e', r.entry? k = some e' ∧ (e'.name, e.name) ∈ ls

lemma mem_insertAscending {n k l} : k ∈ insertAscending n l ↔ k = n ∨ k ∈ l := by
  induction l with
  | nil => simp [insertAscending]
  | cons m l ih =>
    rw [insertAscending]
    split
    · simp
    · split
      · rename_i same
        simp [same]
      · rw [mem_cons, mem_cons]
        tauto

/-- The same classes, described in another way. -/
structure Redescribed (r r' : Relations) (f : ClassId → Entry → Entry) : Prop where
  entries : ∀ i, r'.entry? i = (r.entry? i).map (f i)
  names : ∀ i e, (f i e).name = e.name

namespace Redescribed

variable {r r' : Relations} {f : ClassId → Entry → Entry} (redescribed : Redescribed r r' f)

include redescribed

lemma now {i e} (here : r.entry? i = some e) : r'.entry? i = some (f i e) := by
  rw [redescribed.entries, here]
  rfl

lemma before {i e'} (here : r'.entry? i = some e') : ∃ e, r.entry? i = some e ∧ f i e = e' := by
  rwa [redescribed.entries, Option.map_eq_some_iff] at here

lemma nameOf (i : ClassId) : r'.nameOf i = r.nameOf i := by
  rw [Relations.nameOf, redescribed.entries, Relations.nameOf]
  cases r.entry? i with
  | none => rfl
  | some e => exact redescribed.names i e

lemma distinct (distinct : r.Distinct) : r'.Distinct := by
  intro i j e₁ e₂ one other same
  obtain ⟨old₁, at₁, rfl⟩ := redescribed.before one
  obtain ⟨old₂, at₂, rfl⟩ := redescribed.before other
  rw [redescribed.names, redescribed.names] at same
  exact distinct i j old₁ old₂ at₁ at₂ same

lemma exists_iff (P : ClassId → String → Prop) :
    (∃ i e, r'.entry? i = some e ∧ P i e.name) ↔ ∃ i e, r.entry? i = some e ∧ P i e.name := by
  constructor
  · rintro ⟨i, e', now, holds⟩
    obtain ⟨e, here, rfl⟩ := redescribed.before now
    exact ⟨i, e, here, redescribed.names i e ▸ holds⟩
  · rintro ⟨i, e, here, holds⟩
    exact ⟨i, _, redescribed.now here, (redescribed.names i e).symm ▸ holds⟩

end Redescribed

lemma modify_redescribed (r : Relations) (i : ClassId) {f} (names : ∀ e, (f e).name = e.name) :
    Redescribed r (r.modify i f) fun j e => if i = j then f e else e := by
  refine ⟨fun j => ?_, fun j e => ?_⟩
  · rw [Relations.entry?_modify]
    split
    · rfl
    · rw [Option.map_id']
  · split
    · exact names e
    · rfl

lemma link_redescribed (r : Relations) {i o} (other : i ≠ o) : Redescribed r (r.link i o) fun j e => { e with
        enclosing := if i = j then some o else e.enclosing
        inners := if o = j then insertAscending i e.inners else e.inners } := by
  refine ⟨fun j => ?_, fun _ _ => rfl⟩
  rw [Relations.link, if_neg other, Relations.entry?_modify, Relations.entry?_modify]
  cases r.entry? j with
  | none => simp
  | some e =>
    by_cases one : i = j
    · have two : o ≠ j := fun two => other (one.trans two.symm)
      simp [one, two]
    · by_cases two : o = j <;> simp [one, two]

/-- The relations so far, with more entries. -/
def Extends (r r' : Relations) : Prop := ∀ i e, r.entry? i = some e → r'.entry? i = some e

variable {r : Relations} {names : List String} {ls : List (String × String)} {own : String → Own}

namespace Gathers

lemma empty : Gathers .empty [] [] fun _ => {} := by
  have none_ (i : ClassId) : Relations.entry? .empty i = none := by simp [ Relations.entry?, Relations.empty]
  constructor <;> simp [none_, Relations.Distinct]

lemma mem_names (gathers : Gathers r names ls own) {i e} (here : r.entry? i = some e) : e.name ∈ names :=
  (gathers.known e.name).2 ⟨i, e, here, rfl⟩

/-- A name that is mentioned has a number from then on. -/
lemma number (gathers : Gathers r names ls own) (d : String) :
    Gathers (r.number d).2 (names ++ [d]) ls own ∧ Extends r (r.number d).2 ∧
      ∃ e, Relations.entry? (r.number d).2 (r.number d).1 = some e ∧ e.name = d := by
  cases found : r.find? d with
  | some i =>
    obtain ⟨e, here, named⟩ := (Relations.find?_eq_some gathers.distinct).1 found
    have same : r.number d = (i, r) := by rw [Relations.number, found]
    rw [same]
    refine ⟨{ gathers with known := fun d' => ?_, linked := fun l mem => ?_, unsaid := fun d' absent => ?_ },
      fun _ _ here => here, e, here, named⟩
    · rw [mem_append, mem_singleton, gathers.known]
      exact ⟨fun h => h.elim id fun same => ⟨i, e, here, named.trans same.symm⟩, .inl⟩
    · exact (gathers.linked l mem).imp (mem_append_left _) (mem_append_left _)
    · exact gathers.unsaid d' fun mem => absent (mem_append_left _ mem)
  | none =>
    have absent := Relations.find?_eq_none.1 found
    have fresh : d ∉ names := fun mem => by
      obtain ⟨i, e, here, named⟩ := (gathers.known d).1 mem
      exact absent i e here named
    have same : r.number d = (r.entries.size, ⟨r.entries.push { name := d }⟩) := by
      rw [Relations.number, found]
    have last : Relations.entry? ⟨r.entries.push { name := d }⟩ r.entries.size =
        some { name := d } := by
      simp [ Relations.entry?]
    have older {i : ClassId} {e : Entry} (here : r.entry? i = some e) :
        Relations.entry? ⟨r.entries.push { name := d }⟩ i = some e := by
      obtain ⟨inside, -⟩ := Array.getElem?_eq_some_iff.1 here
      rw [ Relations.entry?, Array.getElem?_push_lt inside, ← here, Relations.entry?,
        Array.getElem?_eq_getElem inside]
    have entries {i : ClassId} {e : Entry}
        (here : Relations.entry? ⟨r.entries.push { name := d }⟩ i = some e) :
        r.entry? i = some e ∨ i = r.entries.size ∧ e = { name := d } := by
      rw [ Relations.entry?, Array.getElem?_push] at here
      split at here
      · rename_i at_
        exact .inr ⟨at_, (Option.some.inj here).symm⟩
      · exact .inl here
    have nameOf {i : ClassId} {e : Entry} (here : r.entry? i = some e) :
        (⟨r.entries.push { name := d }⟩ : Relations).nameOf i = r.nameOf i := by
      rw [Relations.nameOf_eq (older here), Relations.nameOf_eq here]
    rw [same]
    refine ⟨?_, fun _ _ here => older here, _, last, rfl⟩
    constructor
    · intro i j e e' here there named
      rcases entries here with one | ⟨rfl, rfl⟩ <;> rcases entries there with other | ⟨rfl, rfl⟩
      · exact gathers.distinct i j e e' one other named
      · exact absurd named (absent i e one)
      · exact absurd named.symm (absent j e' other)
      · rfl
    · intro d'
      rw [mem_append, mem_singleton, gathers.known]
      constructor
      · rintro (⟨i, e, here, named⟩ | rfl)
        · exact ⟨i, e, older here, named⟩
        · exact ⟨_, _, last, rfl⟩
      · rintro ⟨i, e, here, named⟩
        rcases entries here with old | ⟨rfl, rfl⟩
        · exact .inl ⟨i, e, old, named⟩
        · exact .inr named.symm
    · exact fun l mem => (gathers.linked l mem).imp (mem_append_left _) (mem_append_left _)
    · exact fun d' absent => gathers.unsaid d' fun mem => absent (mem_append_left _ mem)
    · intro i e here
      rcases entries here with old | ⟨rfl, rfl⟩
      · exact gathers.own i e old
      · exact (gathers.unsaid d fresh).symm
    · intro i e here
      rcases entries here with old | ⟨rfl, rfl⟩
      · rw [← gathers.enclosing i e old]
        refine Option.map_congr fun o outer => ?_
        obtain ⟨e', there⟩ := gathers.bound i e o old outer
        exact nameOf there
      · cases outer : lastOuter ls d with
        | none => rfl
        | some o => exact absurd (gathers.linked _ (lastOuter_mem outer)).1 fresh
    · intro i e o here outer
      rcases entries here with old | ⟨rfl, rfl⟩
      · obtain ⟨e', there⟩ := gathers.bound i e o old outer
        exact ⟨e', older there⟩
      · cases outer
    · intro i e here k
      rcases entries here with old | ⟨rfl, rfl⟩
      · rw [gathers.inners i e old k]
        constructor
        · rintro ⟨e', there, link⟩
          exact ⟨e', older there, link⟩
        · rintro ⟨e', there, link⟩
          rcases entries there with known | ⟨rfl, rfl⟩
          · exact ⟨e', known, link⟩
          · exact absurd (gathers.linked _ link).1 fresh
      · constructor
        · intro mem
          cases mem
        · rintro ⟨e', -, link⟩
          exact absurd (gathers.linked _ link).2 fresh

/-- Changing what a class says of itself. -/
lemma say (gathers : Gathers r names ls own) {i e} (here : r.entry? i = some e)
    {f} {g : Own → Own} (name : ∀ e, (f e).name = e.name)
    (enclosing : ∀ e, (f e).enclosing = e.enclosing) (inners : ∀ e, (f e).inners = e.inners)
    (said : ∀ e, (f e).own = g e.own) :
    Gathers (r.modify i f) names ls (Function.update own e.name (g (own e.name))) := by
  have redescribed := modify_redescribed r i name
  have outer (j : ClassId) (old : Entry) : (if i = j then f old else old).enclosing = old.enclosing := by
    split
    · exact enclosing old
    · rfl
  have inner (j : ClassId) (old : Entry) : (if i = j then f old else old).inners = old.inners := by
    split
    · exact inners old
    · rfl
  constructor
  · exact redescribed.distinct gathers.distinct
  · intro d
    rw [gathers.known, redescribed.exists_iff fun _ name => name = d]
  · exact gathers.linked
  · intro d absent
    rw [Function.update_of_ne, gathers.unsaid d absent]
    rintro rfl
    exact absent (gathers.mem_names here)
  · intro j e' now
    obtain ⟨old, there, rfl⟩ := redescribed.before now
    rw [redescribed.names]
    by_cases same : i = j
    · subst same
      cases here.symm.trans there
      rw [if_pos rfl, Function.update_self, said, gathers.own i e here]
    · rw [if_neg same, Function.update_of_ne, gathers.own j old there]
      exact fun named => same (gathers.distinct i j e old here there named.symm)
  · intro j e' now
    obtain ⟨old, there, rfl⟩ := redescribed.before now
    rw [redescribed.names, outer, ← gathers.enclosing j old there]
    exact Option.map_congr fun o _ => redescribed.nameOf o
  · intro j e' o now around
    obtain ⟨old, there, rfl⟩ := redescribed.before now
    rw [outer] at around
    obtain ⟨e₁, at₁⟩ := gathers.bound j old o there around
    exact ⟨_, redescribed.now at₁⟩
  · intro j e' now k
    obtain ⟨old, there, rfl⟩ := redescribed.before now
    rw [inner, redescribed.names, gathers.inners j old there k]
    constructor
    · rintro ⟨e₁, at₁, link⟩
      exact ⟨_, redescribed.now at₁, (redescribed.names k e₁).symm ▸ link⟩
    · rintro ⟨e₂, at₂, link⟩
      obtain ⟨e₁, at₁, rfl⟩ := redescribed.before at₂
      exact ⟨e₁, at₁, redescribed.names k e₁ ▸ link⟩

/-- Linking one class to another. -/
lemma link (gathers : Gathers r names ls own) {i o e e'}
    (here : r.entry? i = some e) (there : r.entry? o = some e') :
    Gathers (r.link i o) names (ls ++ [(e.name, e'.name)].filter fun l => l.1 != l.2) own := by
  by_cases same : i = o
  · subst same
    cases here.symm.trans there
    simpa [Relations.link] using gathers
  have other : e.name ≠ e'.name := fun named => same (gathers.distinct i o e e' here there named)
  have kept : [(e.name, e'.name)].filter (fun l => l.1 != l.2) = [(e.name, e'.name)] := by simp [other]
  rw [kept]
  have redescribed := link_redescribed r same
  constructor
  · exact redescribed.distinct gathers.distinct
  · intro d
    rw [gathers.known, redescribed.exists_iff fun _ name => name = d]
  · intro l mem
    rcases mem_append.1 mem with old | new
    · exact gathers.linked l old
    · cases mem_singleton.1 new
      exact ⟨gathers.mem_names here, gathers.mem_names there⟩
  · exact gathers.unsaid
  · intro j e₂ now
    obtain ⟨old, at_, rfl⟩ := redescribed.before now
    exact gathers.own j old at_
  · intro j e₂ now
    obtain ⟨old, at_, rfl⟩ := redescribed.before now
    rw [lastOuter_append_one]
    by_cases one : i = j
    · subst one
      cases here.symm.trans at_
      simp [redescribed.nameOf, Relations.nameOf_eq there]
    · have apart : e.name ≠ old.name := fun named => one (gathers.distinct i j e old here at_ named)
      rw [if_neg one, if_neg apart, ← gathers.enclosing j old at_]
      exact Option.map_congr fun k _ => redescribed.nameOf k
  · intro j e₂ k now around
    obtain ⟨old, at_, rfl⟩ := redescribed.before now
    by_cases one : i = j
    · simp only [one, if_true, Option.some.injEq] at around
      exact ⟨_, redescribed.now (around ▸ there)⟩
    · simp only [one] at around
      obtain ⟨e₁, at₁⟩ := gathers.bound j old k at_ around
      exact ⟨_, redescribed.now at₁⟩
  · intro j e₂ now k
    obtain ⟨old, at_, rfl⟩ := redescribed.before now
    have members : (k ∈ if o = j then insertAscending i old.inners else old.inners) ↔
        (o = j ∧ k = i) ∨ k ∈ old.inners := by
      by_cases two : o = j <;> simp [two, mem_insertAscending]
    rw [members, gathers.inners j old at_ k]
    constructor
    · rintro (⟨rfl, rfl⟩ | ⟨e₁, at₁, link⟩)
      · cases there.symm.trans at_
        exact ⟨_, redescribed.now here, mem_append_right _ mem_cons_self⟩
      · exact ⟨_, redescribed.now at₁, mem_append_left _ link⟩
    · rintro ⟨e₃, at₃, link⟩
      obtain ⟨e₁, at₁, rfl⟩ := redescribed.before at₃
      rcases mem_append.1 link with old_ | new
      · exact .inr ⟨e₁, at₁, old_⟩
      · obtain ⟨inner, outer⟩ := Prod.mk.inj (mem_singleton.1 new)
        exact .inl ⟨gathers.distinct o j e' old there at_ outer.symm,
          gathers.distinct k i e₁ e at₁ here inner⟩

end Gathers

/-! ## Reading a class -/

/-- Relations while a class is being read: the class has its number. -/
structure Reading (r : Relations) (id : ClassId) (d : String) (names : List String)
    (ls : List (String × String)) (own : String → Own) : Prop extends Gathers r names ls own where
  numbered : ∃ e, r.entry? id = some e ∧ e.name = d

/-- The links among pairs of names. -/
def properLinks (pairs : List (String × String)) : List (String × String) :=
  pairs.filter fun l => l.1 != l.2

namespace Reading

variable {id : ClassId} {d : String}

lemma say (reading : Reading r id d names ls own) {f} {g : Own → Own}
    (name : ∀ e, (f e).name = e.name) (enclosing : ∀ e, (f e).enclosing = e.enclosing)
    (inners : ∀ e, (f e).inners = e.inners) (said : ∀ e, (f e).own = g e.own) :
    Reading (r.modify id f) id d names ls (Function.update own d (g (own d))) := by
  obtain ⟨e, here, rfl⟩ := reading.numbered
  exact ⟨reading.toGathers.say here name enclosing inners said,
    _, (modify_redescribed r id name).now here, by simp [name]⟩

lemma link (reading : Reading r id d names ls own) (other : String) :
    Reading ((r.number other).2.link id (r.number other).1) id d (names ++ [other])
        (ls ++ properLinks [(d, other)]) own ∧
      Reading ((r.number other).2.link (r.number other).1 id) id d (names ++ [other])
        (ls ++ properLinks [(other, d)]) own := by
  obtain ⟨gathers, extends_, e', there, named'⟩ := reading.toGathers.number other
  obtain ⟨e, here, named⟩ := reading.numbered
  have keeps (i o : ClassId) : ∃ e, Relations.entry? ((r.number other).2.link i o) id = some e ∧ e.name = d := by
    by_cases same : i = o
    · exact ⟨e, by rw [Relations.link, if_pos same, extends_ id e here], named⟩
    · exact ⟨_, (link_redescribed _ same).now (extends_ id e here), named⟩
  have one := gathers.link (extends_ id e here) there
  have two := gathers.link there (extends_ id e here)
  rw [named, named'] at one two
  exact ⟨⟨one, keeps _ _⟩, ⟨two, keeps _ _⟩⟩

variable {c : Register.Class} (reading : Reading r id c.name names ls own)

include reading

lemma addEnclosingClass : Reading (r.addEnclosingClass id c) id c.name (names ++ c.enclosingClass?.toList)
    (ls ++ properLinks (c.enclosingClass?.map (c.name, ·)).toList) own := by
  rw [Relations.addEnclosingClass]
  cases c.enclosingClass? with
  | none => simpa [properLinks] using reading
  | some other => exact (reading.link other).1

lemma addEnclosingMethod : Reading (r.addEnclosingMethod id c) id c.name
    (names ++ (c.enclosingMethod?.map (·.owner)).toList)
    (ls ++ properLinks (c.enclosingMethod?.map fun m => (c.name, m.owner)).toList)
    (Function.update own c.name ((own c.name).addEnclosingMethod c)) := by
  rw [Relations.addEnclosingMethod, Own.addEnclosingMethod]
  cases c.enclosingMethod? with
  | none => simpa [properLinks] using reading
  | some method =>
    obtain ⟨linked, -⟩ := reading.link method.owner
    obtain ⟨gathers, extends_, e', there, named'⟩ := reading.toGathers.number method.owner
    obtain ⟨e, here, named⟩ := reading.numbered
    have same : id = (r.number method.owner).1 ↔ c.name = method.owner := by
      constructor
      · intro at_
        rw [← at_, extends_ id e here] at there
        cases there
        exact named.symm.trans named'
      · intro at_
        exact gathers.distinct _ _ _ _ (extends_ id e here) there (by rw [named, named', at_])
    dsimp only
    split
    · rename_i at_
      rw [if_pos (same.1 at_), Function.update_eq_self]
      rwa [Relations.link, if_pos at_] at linked
    · rename_i at_
      rw [if_neg fun named => at_ (same.2 named)]
      exact linked.say (f := fun e => { e with enclosingMethod := some method })
        (g := fun o => { o with enclosingMethod := some method })
        (fun _ => rfl) (fun _ => rfl) (fun _ => rfl) fun _ => rfl

lemma addItem : Reading (r.addItem id c) id c.name names ls
    (Function.update own c.name ((own c.name).addItem c)) := by
  rw [Relations.addItem, Own.addItem]
  cases c.innerClass? with
  | none => simpa using reading
  | some item =>
    exact reading.say (g := fun o => { o with
        access := o.access ||| Access.Flags.without item.access Access.kindFlags
        innerName := item.name
        hasItem := true })
      (fun _ => rfl) (fun _ => rfl) (fun _ => rfl) fun _ => rfl

lemma addMembers (members : List String) :
    Reading (members.foldl (Relations.addMember id) r) id c.name (names ++ members)
      (ls ++ properLinks (members.map (·, c.name))) own := by
  induction members generalizing r names ls with
  | nil => simpa [properLinks] using reading
  | cons name members ih =>
    have rest := ih (reading.link name).2
    rw [append_assoc, append_assoc, properLinks, properLinks, ← filter_append] at rest
    exact rest

end Reading

/-- What relations gather from one class. -/
lemma addClass_gathers {r names ls own} (gathers : Gathers r names ls own) (c : Register.Class) :
    Gathers (r.addClass c) (names ++ mentioned c) (ls ++ links c)
      (Function.update own c.name ((own c.name).add c)) := by
  obtain ⟨start, -, numbered⟩ := gathers.number c.name
  have reading : Reading (r.number c.name).2 (r.number c.name).1 c.name (names ++ [c.name]) ls own :=
    ⟨start, numbered⟩
  have described := reading.say
    (f := fun e => { e with access := Access.Flags.without e.access Access.kindFlags ||| c.access })
    (g := fun o => o.addAccess c) (fun _ => rfl) (fun _ => rfl) (fun _ => rfl) fun _ => rfl
  have done := (described.addEnclosingClass.addEnclosingMethod.addItem).addMembers c.memberClasses
  simp only [Function.update_self, Function.update_idem] at done
  have gathered := done.toGathers
  simp only [properLinks, append_assoc, ← filter_append] at gathered
  simp only [mentioned, links, append_assoc]
  exact gathered

lemma ownOf_append_one (cs : List Register.Class) (c : Register.Class) :
    ownOf (cs ++ [c]) = Function.update (ownOf cs) c.name ((ownOf cs c.name).add c) := by
  funext d
  by_cases same : c.name = d
  · subst same
    simp [ownOf]
  · rw [Function.update_of_ne (Ne.symm same)]
    simp [ownOf, same]

lemma ofProgram_gathers (p : Program) : Gathers (.ofProgram p) (p.classes.flatMap mentioned)
    (p.classes.flatMap links) (ownOf p.classes) := by
  have walk (later earlier : List Register.Class) (r : Relations)
      (gathers : Gathers r (earlier.flatMap mentioned) (earlier.flatMap links) (ownOf earlier)) :
      Gathers (later.foldl Relations.addClass r) ((earlier ++ later).flatMap mentioned)
        ((earlier ++ later).flatMap links) (ownOf (earlier ++ later)) := by
    induction later generalizing earlier r with
    | nil => simpa using gathers
    | cons c later ih =>
      have next := addClass_gathers gathers c
      rw [← ownOf_append_one] at next
      simpa using ih (earlier ++ [c]) (r.addClass c) (by simpa using next)
  exact walk p.classes [] .empty .empty

/-! ## Classes by name -/

namespace Gathers

variable {d o : String} (gathers : Gathers r names ls own)

include gathers

lemma lookup?_isSome : (r.lookup? d).isSome ↔ d ∈ names := by
  simp only [Option.isSome_iff_exists, Relations.lookup?_eq_some gathers.distinct, gathers.known]
  exact exists_comm

lemma enclosing?_eq (d : String) : r.enclosing? d = lastOuter ls d := by
  rw [Relations.enclosing?]
  cases found : r.lookup? d with
  | none =>
    cases outer : lastOuter ls d with
    | none => rfl
    | some o =>
      have known := gathers.lookup?_isSome.2 (gathers.linked _ (lastOuter_mem outer)).1
      simp [found] at known
  | some e =>
    obtain ⟨i, here, rfl⟩ := (Relations.lookup?_eq_some gathers.distinct).1 found
    exact gathers.enclosing i e here

lemma mem_innerNames : d ∈ r.innerNames o ↔ (d, o) ∈ ls := by
  rw [Relations.innerNames]
  cases found : r.lookup? o with
  | none =>
    constructor
    · intro mem
      cases mem
    · intro link
      have known := gathers.lookup?_isSome.2 (gathers.linked _ link).2
      simp [found] at known
  | some e =>
    obtain ⟨i, here, rfl⟩ := (Relations.lookup?_eq_some gathers.distinct).1 found
    simp only [Option.elim_some, mem_map]
    constructor
    · rintro ⟨k, mem, rfl⟩
      obtain ⟨e', there, link⟩ := (gathers.inners i e here k).1 mem
      rwa [Relations.nameOf_eq there]
    · intro link
      obtain ⟨k, e', there, rfl⟩ := (gathers.known d).1 (gathers.linked _ link).1
      exact ⟨k, (gathers.inners i e here k).2 ⟨e', there, link⟩, Relations.nameOf_eq there⟩

lemma own_eq {e} (found : r.lookup? d = some e) : e.own = own d := by
  obtain ⟨i, here, rfl⟩ := (Relations.lookup?_eq_some gathers.distinct).1 found
  exact gathers.own i e here

end Gathers

end Restack.Nesting
