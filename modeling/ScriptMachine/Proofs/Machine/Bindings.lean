import Mathlib
import ScriptMachine.Proofs.Heap.Regularity
import ScriptMachine.Proofs.Machine.Lookup
import ScriptMachine.Proofs.Machine.Stepping
import ScriptMachine.Proofs.Related

/-!
# ScriptMachine.Proofs.Machine.Bindings — assigning a name is assigning what reading it finds

Reading a bare name goes through four kinds of tables for a value, assigning one goes through them for a
table. `scopes` lists these tables in the order in which they count. Both walks come out as searches
along this list, the one for the first value and the other for the first table that has one. An
assignment changes no scope into another and gives none a name that had not been there: the walk for
the value ends at the same place afterwards.

`setGlobal_agrees` puts it together: a name can be assigned exactly when it can be read, what is read
afterwards is what was assigned, one entry has changed, and a name that has no value is an error that
changes nothing. `lookup?_eq` and `binding?_eq` are the two walks as searches of one list, and
`Regular.lookup?_rebind` is what the second half rests on.

The classes above the receiver's may go round in a circle. Then neither walk comes to its end unless it
finds the name before, and both stop at the same place; the statement covers that case too. Variables
that are locals or captured are resolved by the compiler and never get here.
-/

namespace ScriptMachine

namespace Machine

variable {m m' : Machine} {k : Key} {v w : Value} {b b' : Binding} {r name : Ref}

/-! ## Scopes -/

/-- The table where a binding is kept. -/
def table? (m : Machine) : Binding → Option (Table Value)
  | .field r => (m.heap.instance? r).map (·.fields)
  | .static r => (m.heap.class? r).map (·.statics)
  | .symbol r => (m.heap.package? r).map (·.symbols)
  | .global => some m.globals

/-- The value a binding holds for a name. -/
def bound? (m : Machine) (k : Key) (b : Binding) : Option Value :=
  (m.table? b).bind (·.get? k)

/-- Does a binding hold a value for a name? -/
def binds (m : Machine) (k : Key) (b : Binding) : Bool :=
  (m.bound? k b).isSome

/-- The fields of the receiver, and the statics of its class and of those above. -/
def receiverScopes (m : Machine) : List Binding :=
  match m.receiver? with
  | none => []
  | some (r, i) => .field r :: (m.heap.ancestry i.classRef).map fun e => .static e.1

/-- The symbols of the package of the running code and of those around it. -/
def packageScopes (m : Machine) : List Binding :=
  (m.heap.packages m.currentPackage).map fun e => .symbol e.1

/-- **`m.scopes`** — where the running code looks for a name, one after the other. -/
def scopes (m : Machine) : List Binding :=
  m.receiverScopes ++ (m.packageScopes ++ [.global])

theorem bound?_field {i : InstanceObj} (hi : m.heap.instance? r = some i) :
    m.bound? k (.field r) = i.fields.get? k := by
  simp [bound?, table?, hi]

theorem bound?_static {c : ClassObj} (hc : m.heap.class? r = some c) :
    m.bound? k (.static r) = c.statics.get? k := by
  simp [bound?, table?, hc]

theorem bound?_symbol {p : Package} (hp : m.heap.package? r = some p) :
    m.bound? k (.symbol r) = p.symbols.get? k := by
  simp [bound?, table?, hp]

/-- Looking a name up in the receiver is finding the first of its scopes in which it is bound. -/
theorem receiverValue?_eq (m : Machine) (k : Key) :
    m.receiverValue? k = m.receiverScopes.findSome? (m.bound? k) := by
  unfold receiverValue? receiverScopes
  cases hr : m.receiver? with
  | none => rfl
  | some ri =>
    obtain ⟨r, i⟩ := ri
    dsimp only
    rw [List.findSome?_cons, bound?_field (instance?_of_receiver? hr), List.findSome?_map]
    have hstatic : m.heap.static? i.classRef k = (m.heap.ancestry i.classRef).findSome?
        (m.bound? k ∘ fun e => .static e.1) :=
      findSome?_congr fun e he => (bound?_static (Heap.class?_of_mem_ancestryFrom he)).symm
    rw [hstatic]
    cases i.fields.get? k <;> rfl

/-- And so it is in the packages. -/
theorem packageValue?_eq (m : Machine) (k : Key) :
    m.packageValue? k = m.packageScopes.findSome? (m.bound? k) := by
  unfold packageValue? packageScopes
  rw [List.findSome?_map]
  exact findSome?_congr fun e he => (bound?_symbol (Heap.package?_of_mem_packagesFrom he)).symm

/-- **`lookup?_eq`** — the value of a name is the first one in the scopes. -/
theorem lookup?_eq (m : Machine) (k : Key) : m.lookup? k = m.scopes.findSome? (m.bound? k) := by
  unfold lookup? scopes
  rw [List.findSome?_append, List.findSome?_append, receiverValue?_eq, packageValue?_eq]
  simp [bound?, table?]

/-- The scope in which a name is assigned is found in the same list. -/
theorem receiverBinding?_eq (m : Machine) (k : Key) :
    m.receiverBinding? k = m.receiverScopes.find? (m.binds k) := by
  unfold receiverBinding? receiverScopes
  cases hr : m.receiver? with
  | none => rfl
  | some ri =>
    obtain ⟨r, i⟩ := ri
    dsimp only
    have hfield : m.binds k (.field r) = i.fields.contains k := by
      rw [binds, bound?_field (instance?_of_receiver? hr), Table.contains]
    have hstatic : (m.heap.ancestry i.classRef).find? (fun e => e.2.statics.contains k) =
        (m.heap.ancestry i.classRef).find? (m.binds k ∘ fun e => .static e.1) :=
      List.find?_congr fun e he => by
        rw [Function.comp, binds, bound?_static (Heap.class?_of_mem_ancestryFrom he), Table.contains]
    rw [List.find?_cons, hfield, List.find?_map, Heap.staticOwner?, hstatic, Option.map_map]
    cases i.fields.contains k <;> rfl

/-- And so it is in the packages. -/
theorem packageBinding?_eq (m : Machine) (k : Key) :
    m.packageBinding? k = m.packageScopes.find? (m.binds k) := by
  unfold packageBinding? packageScopes
  have hsymbol : ∀ o, (m.heap.packages o).find? (fun e => e.2.symbols.contains k) =
      (m.heap.packages o).find? (m.binds k ∘ fun e => .symbol e.1) := fun o =>
    List.find?_congr fun e he => by
      rw [Function.comp, binds, bound?_symbol (Heap.package?_of_mem_packagesFrom he), Table.contains]
  cases hp : m.currentPackage with
  | none => cases hn : m.heap.cells.size <;> simp [Heap.packages, Heap.packagesFrom, hn]
  | some p =>
    dsimp only
    rw [List.find?_map, hsymbol]

/-- **`binding?_eq`** — a name is assigned in the first scope that has it. -/
theorem binding?_eq (m : Machine) (k : Key) : m.binding? k = m.scopes.find? (m.binds k) := by
  unfold binding? scopes
  rw [List.find?_append, List.find?_append, receiverBinding?_eq, packageBinding?_eq,
    List.find?_singleton]
  rfl

/-- What is read is what is bound where it would be assigned. -/
theorem lookup?_eq_bind (m : Machine) (k : Key) : m.lookup? k = (m.binding? k).bind (m.bound? k) := by
  rw [lookup?_eq, binding?_eq]
  induction m.scopes with
  | nil => rfl
  | cons b scopes ih =>
    rw [List.findSome?_cons, List.find?_cons, binds]
    cases hb : m.bound? k b with
    | some w => simp [hb]
    | none => simpa using ih

/-! ## What an assignment changes -/

/-- The object of a reference when a name has been assigned. -/
def assigned (k : Key) (v : Value) (b : Binding) (r : Ref) : Obj → Obj
  | .instanceObj i =>
    .instanceObj (if b = .field r then { i with fields := i.fields.set k v } else i)
  | .classObj c => .classObj (if b = .static r then { c with statics := c.statics.set k v } else c)
  | .package p => .package (if b = .symbol r then { p with symbols := p.symbols.set k v } else p)
  | o => o

section Rebind

variable (m k v b)

/-- An assignment changes the one object that has the name. -/
theorem get?_rebind (r : Ref) :
    (m.rebind k v b).heap.get? r = (m.heap.get? r).map (assigned k v b r) := by
  cases b with
  | global =>
    show m.heap.get? r = _
    cases m.heap.get? r with
    | none => rfl
    | some o => cases o <;> rfl
  | field r' | static r' | symbol r' =>
    unfold rebind
    rw [Heap.get?_modify]
    cases m.heap.get? r with
    | none => split <;> rfl
    | some o => by_cases hr : r = r' <;> cases o <;> simp [assigned, hr, eq_comm (a := r')]

theorem instance?_rebind (r : Ref) : (m.rebind k v b).heap.instance? r =
    (m.heap.instance? r).map fun i =>
      if b = .field r then { i with fields := i.fields.set k v } else i := by
  unfold Heap.instance?
  rw [get?_rebind]
  rcases m.heap.get? r with _ | _ | _ <;> rfl

theorem class?_rebind (r : Ref) : (m.rebind k v b).heap.class? r =
    (m.heap.class? r).map fun c =>
      if b = .static r then { c with statics := c.statics.set k v } else c := by
  unfold Heap.class?
  rw [get?_rebind]
  rcases m.heap.get? r with _ | _ | _ <;> rfl

theorem package?_rebind (r : Ref) : (m.rebind k v b).heap.package? r =
    (m.heap.package? r).map fun p =>
      if b = .symbol r then { p with symbols := p.symbols.set k v } else p := by
  unfold Heap.package?
  rw [get?_rebind]
  rcases m.heap.get? r with _ | _ | _ <;> rfl

theorem key?_rebind (r : Ref) : (m.rebind k v b).heap.key? r = m.heap.key? r := by
  unfold Heap.key?
  rw [get?_rebind]
  rcases m.heap.get? r with _ | _ | _ <;> rfl

theorem size_cells_rebind : (m.rebind k v b).heap.cells.size = m.heap.cells.size := by
  cases b with
  | global => rfl
  | _ => exact Array.size_modify

theorem fiber_rebind : (m.rebind k v b).fiber = m.fiber := by
  cases b <;> rfl

/-- **`table?_rebind`** — one table gets another entry, and the others stay as they are. -/
theorem table?_rebind (b' : Binding) : (m.rebind k v b).table? b' =
    if b' = b then (m.table? b).map (·.set k v) else m.table? b' := by
  cases b' with
  | field r =>
    by_cases hb : b = .field r
    · simp [table?, instance?_rebind, hb, Function.comp_def]
    · simp [table?, instance?_rebind, hb, Ne.symm hb]
  | static r =>
    by_cases hb : b = .static r
    · simp [table?, class?_rebind, hb, Function.comp_def]
    · simp [table?, class?_rebind, hb, Ne.symm hb]
  | symbol r =>
    by_cases hb : b = .symbol r
    · simp [table?, package?_rebind, hb, Function.comp_def]
    · simp [table?, package?_rebind, hb, Ne.symm hb]
  | global =>
    cases b with
    | global => rfl
    | _ => simp [table?, rebind]

/-- The receiver stays the same object, and only its fields may be others. -/
theorem receiver?_rebind : (m.rebind k v b).receiver? = m.receiver?.map fun e =>
    (e.1, if b = .field e.1 then { e.2 with fields := e.2.fields.set k v } else e.2) := by
  unfold receiver?
  rw [fiber_rebind]
  split
  · rfl
  · split
    · rw [instance?_rebind, Option.map_map, Option.map_map]
      rfl
    · rfl

/-- **`scopes_rebind`** — a name is looked for in the same places as before. -/
theorem scopes_rebind : (m.rebind k v b).receiverScopes = m.receiverScopes ∧
    (m.rebind k v b).packageScopes = m.packageScopes := by
  constructor
  · unfold receiverScopes
    rw [receiver?_rebind]
    cases hr : m.receiver? with
    | none => rfl
    | some ri =>
      have hclass : (if b = .field ri.1 then { ri.2 with fields := ri.2.fields.set k v }
          else ri.2).classRef = ri.2.classRef := by split <;> rfl
      dsimp only [Option.map_some]
      rw [hclass, Heap.ancestry, Heap.ancestryFrom_eq, climb_congr (class?_rebind m k v b)
        (fun r c => by split <;> rfl), size_cells_rebind, ← Heap.ancestryFrom_eq, List.map_map]
      rfl
  · unfold packageScopes currentPackage
    rw [fiber_rebind, Heap.packages, Heap.packagesFrom_eq, climb_congr (package?_rebind m k v b)
      (fun r p => by split <;> rfl), size_cells_rebind, ← Heap.packagesFrom_eq, List.map_map]
    rfl

theorem ancestryEnds_rebind (r : Ref) :
    (m.rebind k v b).heap.ancestryEnds r = m.heap.ancestryEnds r := by
  unfold Heap.ancestryEnds
  rw [Bool.eq_iff_iff, Heap.ancestryEndsWithin_iff, Heap.ancestryEndsWithin_iff,
    nextUp_congr (class?_rebind m k v b) (fun r c => by split <;> rfl), size_cells_rebind]

end Rebind

/-! ## Machines with regular tables -/

/-- **`m.Regular`** — the tables of the machine, in its heap and outside, have strings for keys and are
valid; its dictionaries are valid. -/
structure Regular (m : Machine) : Prop where
  heap : m.heap.Regular
  globals : m.globals.Keyed m.heap
  extensions : ∀ e ∈ m.extensions, e.2.Keyed m.heap

/-- Whichever table a name is in, its keys are texts of the heap. -/
theorem Regular.keyed {t : Table Value} (hm : m.Regular) (ht : m.table? b = some t) :
    t.Keyed m.heap := by
  cases b with
  | field r =>
    obtain ⟨i, hi, rfl⟩ := Option.map_eq_some_iff.mp ht
    exact (hm.heap.objects r _ (Heap.instance?_eq_some.mp hi)).tables _ (by simp [Obj.tables])
  | static r =>
    obtain ⟨c, hc, rfl⟩ := Option.map_eq_some_iff.mp ht
    exact (hm.heap.objects r _ (Heap.class?_eq_some.mp hc)).tables _ (by simp [Obj.tables])
  | symbol r =>
    obtain ⟨p, hp, rfl⟩ := Option.map_eq_some_iff.mp ht
    exact (hm.heap.objects r _ (Heap.package?_eq_some.mp hp)).tables _ (by simp [Obj.tables])
  | global => exact Option.some.inj ht ▸ hm.globals

section Regular

variable (hm : m.Regular) (hk : m.heap.key? name = some k) (hb : m.binds k b = true)
include hm hk hb

/-- The name has its new value there, and every other binding of it is as it was. -/
theorem Regular.bound?_rebind (b' : Binding) : (m.rebind k v b).bound? k b' =
    if b' = b then some v else m.bound? k b' := by
  unfold bound?
  rw [table?_rebind]
  split
  · obtain ⟨w, hw⟩ := Option.isSome_iff_exists.mp hb
    obtain ⟨t, ht, -⟩ := Option.bind_eq_some_iff.mp hw
    rw [ht]
    exact (hm.keyed ht).get?_set hk
  · rfl

/-- A name is bound wherever it was. -/
theorem Regular.binds_rebind (b' : Binding) : (m.rebind k v b).binds k b' = m.binds k b' := by
  rw [binds, hm.bound?_rebind hk hb]
  split
  · rename_i heq
    rw [heq, hb]
    rfl
  · rfl

/-- The name means the same thing after the assignment. -/
theorem Regular.binding?_rebind : (m.rebind k v b).receiverBinding? k = m.receiverBinding? k ∧
    (m.rebind k v b).binding? k = m.binding? k := by
  obtain ⟨hreceiver, hpackage⟩ := scopes_rebind m k v b
  constructor
  · rw [receiverBinding?_eq, receiverBinding?_eq, hreceiver]
    exact List.find?_congr fun b' _ => hm.binds_rebind hk hb b'
  · rw [binding?_eq, binding?_eq, scopes, scopes, hreceiver, hpackage]
    exact List.find?_congr fun b' _ => hm.binds_rebind hk hb b'

end Regular

/-- Does the search for a name among the classes of the receiver end? -/
def searchEnds (m : Machine) (k : Key) : Bool :=
  match m.receiver? with
  | none => true
  | some (_, i) => (m.receiverBinding? k).isSome || m.heap.ancestryEnds i.classRef

/-- An assignment opens no circle of classes and closes none. -/
theorem Regular.searchEnds_rebind (hm : m.Regular) (hk : m.heap.key? name = some k)
    (hb : m.binds k b = true) : (m.rebind k v b).searchEnds k = m.searchEnds k := by
  unfold searchEnds
  rw [(hm.binding?_rebind hk hb).1, receiver?_rebind]
  cases m.receiver? with
  | none => rfl
  | some ri =>
    dsimp only [Option.map_some]
    rw [ancestryEnds_rebind]
    split <;> rfl

/-! ## Finding an entry and changing it -/

/-- **`m.Finds k b w`** — of all scopes that have the name, `b` is the first, and has `w` for it. -/
def Finds (m : Machine) (k : Key) (b : Binding) (w : Value) : Prop :=
  ∃ before after, m.scopes = before ++ b :: after ∧ (∀ b' ∈ before, m.bound? k b' = none) ∧
    m.bound? k b = some w

/-- **`m.Updates k v b m'`** — the entry for the name at `b` becomes `v`. No other entry of any table
changes, and nothing else does. -/
structure Updates (m : Machine) (k : Key) (v : Value) (b : Binding) (m' : Machine) : Prop where
  entry : ∃ t t', m.table? b = some t ∧ m'.table? b = some t' ∧
    ∀ e, e ∈ t'.toList ↔ e = (k, v) ∨ e ∈ t.toList ∧ e.1 ≠ k
  others : ∀ b', b' ≠ b → m'.table? b' = m.table? b'
  rest : m' = m.rebind k v b

/-- Where a name is bound there is a value. -/
theorem finds_of_binding? (hb : m.binding? k = some b) : ∃ w, m.Finds k b w := by
  rw [binding?_eq, List.find?_eq_some_iff_append] at hb
  obtain ⟨hbinds, before, after, hscopes, hbefore⟩ := hb
  obtain ⟨w, hw⟩ := Option.isSome_iff_exists.mp hbinds
  refine ⟨w, before, after, hscopes, fun b' hmem => ?_, hw⟩
  simpa [binds] using hbefore b' hmem

theorem Finds.binds (hf : m.Finds k b w) : m.binds k b = true := by
  obtain ⟨-, -, -, -, hw⟩ := hf
  rw [Machine.binds, hw]
  rfl

theorem Finds.lookup? (hb : m.binding? k = some b) (hf : m.Finds k b w) :
    m.lookup? k = some w := by
  obtain ⟨-, -, -, -, hw⟩ := hf
  rw [lookup?_eq_bind, hb]
  exact hw

theorem Regular.updates (hm : m.Regular) (hk : m.heap.key? name = some k) (v : Value)
    (hf : m.Finds k b w) : m.Updates k v b (m.rebind k v b) := by
  obtain ⟨-, -, -, -, hw⟩ := hf
  obtain ⟨t, ht, -⟩ := Option.bind_eq_some_iff.mp hw
  refine ⟨⟨t, t.set k v, ht, ?_, (hm.keyed ht).mem_set hk⟩, fun b' hne => ?_, rfl⟩
  · rw [table?_rebind, if_pos rfl, ht]
    rfl
  · rw [table?_rebind, if_neg hne]

/-- What was assigned is what is read. -/
theorem Regular.lookup?_rebind (hm : m.Regular) (hk : m.heap.key? name = some k) (v : Value)
    (hb : m.binding? k = some b) (hf : m.Finds k b w) :
    (m.rebind k v b).lookup? k = some v := by
  rw [lookup?_eq_bind, (hm.binding?_rebind hk hf.binds).2, hb, Option.bind_some,
    hm.bound?_rebind hk hf.binds, if_pos rfl]

end Machine

/-! ## Reading and assigning -/

namespace Exec

open Machine

variable {m m' : Machine} {k : Key} {v w : Value} {b : Binding} {name : Ref}

/-- A search that finds nothing ends only if the chain of classes does. -/
theorem searched_eq {α : Type} (m : Machine) (classRef : Ref) (found : Option α) :
    searched classRef found m = if found.isSome || m.heap.ancestryEnds classRef then .ok found m
      else .error .endless m := by
  unfold searched
  cases found with
  | some a => rfl
  | none =>
    rw [get_bind]
    cases m.heap.ancestryEnds classRef <;> rfl

/-- All that the search through the receiver can do is not to end. -/
theorem searchReceiver_eq (m : Machine) (k : Key) : searchReceiver k m =
    if m.searchEnds k then .ok () m else .error .endless m := by
  unfold searchReceiver
  rw [get_bind]
  cases hr : m.receiver? with
  | none =>
    have hends : m.searchEnds k = true := by simp [searchEnds, hr]
    rw [hends]
    rfl
  | some ri =>
    dsimp only
    by_cases hfield : ri.2.fields.contains k = true
    · have hends : m.searchEnds k = true := by simp [searchEnds, receiverBinding?, hr, hfield]
      rw [if_pos hfield, hends]
      rfl
    · have hends : m.searchEnds k = ((m.heap.staticOwner? ri.2.classRef k).isSome ||
          m.heap.ancestryEnds ri.2.classRef) := by
        simp [searchEnds, receiverBinding?, hr, hfield]
      have hsearched := searched_eq m ri.2.classRef (m.heap.staticOwner? ri.2.classRef k)
      rw [← hends] at hsearched
      rw [if_neg hfield]
      show EStateM.map (fun _ => ()) (searched _ _) m = _
      unfold EStateM.map
      rw [hsearched]
      cases m.searchEnds k <;> rfl

theorem key_eq (m : Machine) (name : Ref) : key name m =
    match m.heap.key? name with
    | some k => .ok k m
    | none => .error .stuck m := by
  unfold key
  rw [get_bind]
  cases m.heap.key? name <;> rfl

/-- How far a name is followed before reading and assigning it part ways: to its key, if it is a string
and the search among the classes of the receiver ends. -/
def followed (m : Machine) (name : Ref) : Except Fault Key :=
  match m.heap.key? name with
  | none => .error .stuck
  | some k => if m.searchEnds k then .ok k else .error .endless

theorem key?_of_followed (hf : followed m name = .ok k) :
    m.heap.key? name = some k ∧ m.searchEnds k = true := by
  unfold followed at hf
  split at hf
  · cases hf
  · split at hf
    · obtain rfl := Except.ok.inj hf
      exact ⟨‹_›, ‹_›⟩
    · cases hf

/-- What an instruction does with a name starts with its key and with the search. -/
theorem followed_bind {α : Type} (m : Machine) (name : Ref) (f : Key → Exec α) :
    (do let k ← key name; searchReceiver k; f k) m =
      match followed m name with
      | .error e => .error e m
      | .ok k => f k m := by
  have hkey := key_eq m name
  unfold followed
  cases hk : m.heap.key? name with
  | none =>
    rw [hk] at hkey
    exact bind_error hkey
  | some k =>
    rw [hk] at hkey
    rw [bind_ok hkey]
    dsimp only
    have hsearch := searchReceiver_eq m k
    split at hsearch
    · rename_i hends
      rw [bind_ok hsearch, if_pos hends]
    · rename_i hends
      rw [bind_error hsearch, if_neg hends]

/-- A global is read without any change, or it is undefined. -/
theorem getGlobal_eq (hname : name ≠ m.names.args) : getGlobal name m =
    match followed m name with
    | .error e => .error e m
    | .ok k =>
      match m.lookup? k with
      | some v => .ok v m
      | none => .error (.undefinedVariable (m.heap.name name)) m := by
  have hread : readGlobal? name m = (do
      let k ← key name
      searchReceiver k
      return (← get).lookup? k) m := by
    unfold readGlobal?
    rw [get_bind, if_neg hname]
  rw [followed_bind] at hread
  unfold getGlobal
  cases hfollowed : followed m name with
  | error e =>
    rw [hfollowed] at hread
    exact bind_error hread
  | ok k =>
    rw [hfollowed] at hread
    dsimp only at hread ⊢
    rw [get_bind] at hread
    rw [bind_ok hread]
    cases m.lookup? k <;> rfl

/-- A global is assigned where it is bound, or it is undefined and nothing happens. -/
theorem setGlobal_eq (m : Machine) (name : Ref) (v : Value) : setGlobal name v m =
    match followed m name with
    | .error e => .error e m
    | .ok k =>
      match m.binding? k with
      | some b => .ok () (m.rebind k v b)
      | none => .error (.undefinedVariable (m.heap.name name)) m := by
  unfold setGlobal
  rw [followed_bind]
  cases followed m name with
  | error e => rfl
  | ok k =>
    dsimp only
    rw [get_bind]
    cases m.binding? k <;> rfl

/-- **`setGlobal_agrees`** — a name can be assigned exactly when it can be read. The entry that reading
finds is the one that assigning changes, and reading finds the new value then; an assignment that fails
changes nothing. -/
theorem setGlobal_agrees (hm : m.Regular) (hname : name ≠ m.names.args) (v : Value) :
    ((∃ m', setGlobal name v m = .ok () m') ↔ ∃ w m', getGlobal name m = .ok w m') ∧
    (∀ m', setGlobal name v m = .ok () m' → getGlobal name m' = .ok v m' ∧
      ∃ k b w, m.heap.key? name = some k ∧ getGlobal name m = .ok w m ∧ m.Finds k b w ∧
        m.Updates k v b m') ∧
    ∀ e m', setGlobal name v m = .error e m' → m' = m := by
  have hset := setGlobal_eq m name v
  have hget := getGlobal_eq hname
  cases hfollowed : followed m name with
  | error e =>
    simp only [hfollowed] at hset hget
    rw [hset, hget]
    simp [eq_comm]
  | ok k =>
    cases hb : m.binding? k with
    | none =>
      have hlookup : m.lookup? k = none := by rw [lookup?_eq_bind, hb]; rfl
      simp only [hfollowed, hb, hlookup] at hset hget
      rw [hset, hget]
      simp [eq_comm]
    | some b =>
      obtain ⟨w, hf⟩ := finds_of_binding? hb
      obtain ⟨hk, hends⟩ := key?_of_followed hfollowed
      simp only [hfollowed, hb, hf.lookup? hb] at hset hget
      rw [hset, hget]
      refine ⟨⟨fun _ => ⟨w, m, rfl⟩, fun _ => ⟨_, rfl⟩⟩, fun m' hm' => ?_, fun e m' he => nomatch he⟩
      obtain rfl := (EStateM.Result.ok.inj hm').2
      refine ⟨?_, k, b, w, hk, rfl, hf, hm.updates hk v hf⟩
      have hname' : name ≠ (m.rebind k v b).names.args := by cases b <;> exact hname
      have hfollowed' : followed (m.rebind k v b) name = .ok k := by
        rw [followed, key?_rebind, hk]
        dsimp only
        rw [hm.searchEnds_rebind hk hf.binds, if_pos hends]
      simp only [getGlobal_eq hname', hfollowed', hm.lookup?_rebind hk v hb hf]

/-- In a method of a class, a name that is a static of the class above, and global besides. -/
theorem setGlobal_agrees_shadowed :
    let text := (Heap.new {}).intern "x"
    let k : Key := ⟨text.1, hashText "x"⟩
    let above := text.2.alloc (.classObj
      ⟨text.1, none, .empty, .empty, Table.empty.set k (.number 1), none⟩)
    let below := above.2.alloc (.classObj ⟨text.1, some above.1, .empty, .empty, .empty, none⟩)
    let self := below.2.alloc (.instanceObj ⟨below.1, .empty⟩)
    let fiber := { Fiber.new 0 ⟨0⟩ with stack := #[.obj self.1], frames := [default] }
    let names : Names := ⟨⟨7⟩, ⟨8⟩, ⟨9⟩, ⟨10⟩⟩
    let m : Machine := { (default : Machine) with
      heap := self.2, globals := Table.empty.set k (.number 2), fiber, names }
    m.Regular ∧ text.1 ≠ m.names.args ∧ m.binding? k = some (.static above.1) ∧
    ((∃ m', setGlobal text.1 (.number 3) m = .ok () m') ↔ ∃ w m', getGlobal text.1 m = .ok w m') ∧
    (∀ m', setGlobal text.1 (.number 3) m = .ok () m' → getGlobal text.1 m' = .ok (.number 3) m' ∧
      ∃ k b w, m.heap.key? text.1 = some k ∧ getGlobal text.1 m = .ok w m ∧ m.Finds k b w ∧
        m.Updates k (.number 3) b m') ∧
    ∀ e m', setGlobal text.1 (.number 3) m = .error e m' → m' = m := by
  intro text k above below self fiber names m
  have hk : text.2.key? text.1 = some k := rfl
  have hset : ∀ v : Value, (Table.empty.set k v).Keyed text.2 := fun v => Table.keyed_empty.set hk
  have habove : above.2.Regular := ((Heap.new_regular {}).intern "x").alloc
    ⟨by simpa [Obj.tables, Table.keyed_empty] using hset (.number 1), by simp⟩
  have hbelow : below.2.Regular := habove.alloc ⟨by simp [Obj.tables, Table.keyed_empty], by simp⟩
  have hself : self.2.Regular := hbelow.alloc ⟨by simp [Obj.tables, Table.keyed_empty], by simp⟩
  have hk' : self.2.key? text.1 = some k := rfl
  have hglobals : (Table.empty.set k (Value.number 2)).Keyed self.2 := Table.keyed_empty.set hk'
  have hextensions : m.extensions = [] := rfl
  have hm : m.Regular := ⟨hself, hglobals, by simp [hextensions]⟩
  have hname : text.1 ≠ m.names.args := by decide
  exact ⟨hm, hname, by decide +kernel, setGlobal_agrees hm hname (.number 3)⟩

end Exec

end ScriptMachine
