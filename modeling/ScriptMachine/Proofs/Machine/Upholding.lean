import Mathlib
import ScriptMachine.Machine
import ScriptMachine.Proofs.Machine.Atomicity
import ScriptMachine.Proofs.Machine.Upkeep

/-!
# ScriptMachine.Proofs.Machine.Upholding — instructions keep tables and dictionaries in order

The operations of the instructions, one after the other, and last the instruction itself. Wherever an
entry is made in a table the key has just been taken from a name, or the operations in between make
objects only.

`upholds_execute` is the result, with one case for each operation, and the lemmas before it are in the
order in which operations are built from each other. Nothing is said of the machine but that it was
proper: the instruction need not fit the stack or the code, so the statement holds of any machine
whatever it is made to execute.
-/

namespace ScriptMachine

namespace Exec

variable {α β : Type} {m : Machine} {h : Heap}

/-! ## Callees -/

theorem upholds_callNative (n : Native) (argc : Nat) : Upholds (callNative n argc) :=
  observes_height.upholds.bind fun _ => (observes_valuesFrom _).upholds.bind fun args =>
    (upholds_runNative n args).bind fun _ => (upholds_modifyStack _).bind fun _ => upholds_push _

/-- An instance starts with the fields of its class. -/
theorem upholds_instantiate (classRef : Ref) (argc : Nat) : Upholds (instantiate classRef argc) := by
  refine upholds_get fun m hm => upholdsAt_need hm fun c hc => .bind ?_ fun target => ?_
  · have hfields := Obj.regular_classObj.mp (hm.heap.objects _ _ (Heap.class?_eq_some.mp hc))
    exact hm.alloc (Obj.regular_instanceObj.mpr hfields.2.1) (by simp [Heap.NoString, Obj.kind])
  · refine observes_height.upholds.bind fun _ => (upholds_setStackAt _ _).bind fun _ =>
      observes_get.upholds.bind fun m => (observes_key _).upholds.bind fun k =>
      (observes_searched _ _).upholds.bind fun found => ?_
    split
    · exact upholds_callClosure _ argc
    · exact .ite (upholds_throw _) (upholds_pure _)

/-- A call enters an activation, makes an instance, or runs a native function; which one it is
depends on the kind of the callee. -/
theorem upholds_callValue (callee : Value) (argc : Nat) : Upholds (callValue callee argc) := by
  unfold callValue
  split
  · refine observes_get.upholds.bind fun m => ?_
    split
    · exact upholds_callClosure _ argc
    · exact upholds_callNative _ argc
    · exact upholds_instantiate _ argc
    · exact observes_height.upholds.bind fun _ => (upholds_setStackAt _ _).bind fun _ =>
        upholds_callClosure _ argc
    · exact upholds_throw _
  · exact upholds_throw _

theorem upholds_callInstead (v : Value) (argc : Nat) : Upholds (callInstead v argc) :=
  observes_height.upholds.bind fun _ => (upholds_setStackAt _ _).bind fun _ => upholds_callValue v argc

/-! ## Methods and properties -/

theorem observes_noProperty (name : Ref) : Observes (noProperty name : Exec α) :=
  (observes_nameText name).bind fun _ => observes_throw _

theorem observes_extension? (target : Value) (name : Ref) : Observes (extension? target name) :=
  (observes_key name).bind fun _ => observes_get.bind fun _ => observes_pure _

/-- A method comes before a static, and an extension comes last; all three are looked up without
writing. -/
theorem upholds_invokeOnClass (classRef name : Ref) (argc : Nat) :
    Upholds (invokeOnClass classRef name argc) := by
  refine (observes_key name).upholds.bind fun k => observes_heap.upholds.bind fun h =>
    (observes_searched _ _).upholds.bind fun found => ?_
  split
  · exact upholds_callClosure _ argc
  · exact upholds_callInstead _ argc
  · refine (observes_extension? _ name).upholds.bind fun found => ?_
    split
    · exact upholds_callClosure _ argc
    · exact (observes_noProperty name).upholds

theorem upholds_invokeOnPackage (p : Package) (name : Ref) (argc : Nat) :
    Upholds (invokeOnPackage p name argc) := by
  refine (observes_key name).upholds.bind fun k => ?_
  split
  · exact upholds_callInstead _ argc
  · exact (observes_noProperty name).upholds

/-- An extension comes first, then the methods of the class, then a field, which is called in place. -/
theorem upholds_invokeOnInstance (target name : Ref) (argc : Nat) :
    Upholds (invokeOnInstance target name argc) := by
  refine (observes_extension? _ name).upholds.bind fun found => ?_
  split
  · exact upholds_callClosure _ argc
  · refine (observes_key name).upholds.bind fun k => observes_heap.upholds.bind fun h =>
      (observes_need _).upholds.bind fun i => (observes_searched _ _).upholds.bind fun found => ?_
    split
    · exact upholds_callClosure _ argc
    · exact upholds_callInstead _ argc
    · exact (observes_noProperty name).upholds

theorem upholds_invokeBuiltin (target : Value) (name : Ref) (argc : Nat) :
    Upholds (invokeBuiltin target name argc) := by
  refine (observes_extension? target name).upholds.bind fun found => ?_
  split
  · exact upholds_callClosure _ argc
  · split
    · exact observes_height.upholds.bind fun _ => (observes_nameText name).upholds.bind fun text =>
        (observes_valuesFrom _).upholds.bind fun args => (upholds_runMethod _ text args).bind fun _ =>
        (upholds_modifyStack _).bind fun _ => upholds_push _
    · exact upholds_throw _

/-- The kinds of receivers, one after the other. -/
theorem upholds_invoke (name : Ref) (argc : Nat) : Upholds (invoke name argc) := by
  refine (observes_peek argc).upholds.bind fun target => ?_
  split
  · refine observes_get.upholds.bind fun m => ?_
    split
    · exact upholds_invokeOnClass _ name argc
    · exact upholds_invokeOnPackage _ name argc
    · exact upholds_invokeOnInstance _ name argc
    · exact upholds_invokeBuiltin _ name argc
  · exact upholds_invokeBuiltin _ name argc

theorem observes_superMethod (superclass : Value) (name : Ref) :
    Observes (superMethod superclass name) := by
  refine observes_get.bind fun m => ?_
  split
  · exact observes_throw _
  · refine observes_get.bind fun m => (observes_key name).bind fun k =>
      (observes_searched _ _).bind fun found => ?_
    split
    · exact observes_pure _
    · exact observes_noProperty name

theorem upholds_invokeSuper (superclass : Value) (name : Ref) (argc : Nat) :
    Upholds (invokeSuper superclass name argc) :=
  (observes_superMethod superclass name).upholds.bind fun _ => upholds_callClosure _ argc

theorem upholds_bindMethod (target : Value) (method : Ref) : Upholds (bindMethod target method) :=
  upholds_allocValue (Obj.fresh_of_kind (by simp [Obj.kind]))

/-- A method that is read from an instance comes back bound, so a cell is allocated for it. -/
theorem upholds_instanceProperty (r : Ref) (i : InstanceObj) (name : Ref) :
    Upholds (instanceProperty r i name) := by
  refine (observes_key name).upholds.bind fun k => ?_
  split
  · exact upholds_pure _
  · refine observes_heap.upholds.bind fun h => (observes_searched _ _).upholds.bind fun found => ?_
    split
    · exact upholds_bindMethod _ _
    · exact upholds_pure _
    · exact (observes_noProperty name).upholds

theorem observes_classProperty (r name : Ref) : Observes (classProperty r name) := by
  refine (observes_key name).bind fun k => observes_heap.bind fun h =>
    (observes_searched _ _).bind fun found => ?_
  split
  · exact observes_pure _
  · exact observes_pure _
  · exact observes_noProperty name

theorem observes_taskProperty (t : TaskHandle) (name : Ref) : Observes (taskProperty t name) := by
  refine (observes_nameText name).bind fun text => ?_
  split
  · exact observes_pure _
  · exact observes_pure _
  · exact observes_pure _
  · exact observes_pure _
  · exact observes_noProperty name

/-- A member knows its name and its value, and nothing is allocated to tell them. -/
theorem observes_memberProperty (e : EnumMember) (name : Ref) :
    Observes (memberProperty e name) := by
  refine (observes_nameText name).bind fun text => ?_
  split
  · exact observes_pure _
  · exact observes_pure _
  · exact observes_noProperty name

theorem observes_tableProperty (t : Table Value) (name : Ref) : Observes (tableProperty t name) := by
  refine (observes_key name).bind fun k => ?_
  split
  · exact observes_pure _
  · exact observes_noProperty name

theorem upholds_getProperty (target : Value) (name : Ref) : Upholds (getProperty target name) := by
  unfold getProperty
  split
  · refine observes_get.upholds.bind fun m => ?_
    split
    · exact upholds_instanceProperty _ _ name
    · exact (observes_classProperty _ name).upholds
    · exact (observes_tableProperty _ name).upholds
    · exact (observes_memberProperty _ name).upholds
    · exact (observes_tableProperty _ name).upholds
    · exact (observes_taskProperty _ name).upholds
    · exact upholds_throw _
  · exact upholds_throw _

/-- The table of an instance, a class or a package takes the value under a key of the heap; anything
else refuses. -/
theorem upholds_setProperty (target : Value) (name : Ref) (v : Value) :
    Upholds (setProperty target name v) := by
  unfold setProperty
  split
  · refine upholds_key fun m k hm hk => observes_get.bind_at hm fun m' => ?_
    split
    · refine hm.modify (fun o _ => ?_) fun o _ ho => ?_
      · cases o <;> rfl
      · have hset : ∀ t : Table Value, t.Keyed m.heap → (t.set k v).Keyed m.heap :=
          fun t ht => ht.set hk
        cases o <;> simp_all [withProperty]
    · exact upholds_throw _ m hm
  · exact upholds_throw _

/-! ## Operators -/

/-- The symbol is interned before it is looked for, which is the only change. -/
theorem upholds_operatorMethod? (target : Value) (symbol : String) :
    Upholds (operatorMethod? target symbol) := by
  unfold operatorMethod?
  split
  · refine observes_get.upholds.bind fun m => ?_
    split
    · exact (upholds_intern symbol).bind fun r => ((observes_key r).bind fun _ =>
        observes_get.bind fun _ => observes_searched _ _).upholds
    · exact upholds_pure _
  · exact upholds_pure _

/-- An operator that is overloaded is a call of its method, and otherwise it raises what it was
given. -/
theorem upholds_overloaded (target : Value) (symbol : String) (argc : Nat) (otherwise : Fault) :
    Upholds (overloaded target symbol argc otherwise) := by
  refine (upholds_operatorMethod? target symbol).bind fun found => ?_
  split
  · exact upholds_callClosure _ argc
  · exact upholds_throw _

theorem upholds_concatPieces (count : Nat) : Upholds (concatPieces count) :=
  observes_height.upholds.bind fun _ => (observes_valuesFrom _).upholds.bind fun _ =>
    (observes_joined _).upholds.bind fun _ => (upholds_modifyStack _).bind fun _ =>
    (upholds_internValue _).bind fun _ => upholds_push _

/-- The list of results is fresh, and it replaces the two operands. -/
theorem upholds_elementwise (op : Arithmetic) : Upholds (elementwise op) := by
  refine (observes_peek 1).upholds.bind fun a => (observes_peek 0).upholds.bind fun b =>
    observes_heap.upholds.bind fun h => ?_
  split
  · exact (upholds_modifyStack _).bind fun _ => (upholds_allocList _).bind fun _ => upholds_push _
  · exact upholds_throw _

theorem upholds_addition (a b : Value) : Upholds (addition a b) := by
  refine observes_heap.upholds.bind fun h => .ite ?_ ?_
  · exact (upholds_modifyStack _).bind fun _ => (upholds_internValue _).bind fun _ => upholds_push _
  · split
    · exact (upholds_modifyStack _).bind fun _ => (upholds_allocList _).bind fun _ => upholds_push _
    · exact upholds_overloaded _ _ _ _

theorem upholds_arithmetic (op : Arithmetic) : Upholds (arithmetic op) := by
  refine (observes_peek 1).upholds.bind fun a => (observes_peek 0).upholds.bind fun b =>
    observes_heap.upholds.bind fun h => ?_
  split
  · exact upholds_replaceTop _ _
  · split
    · exact upholds_addition a b
    · exact upholds_overloaded _ _ _ _

theorem upholds_compare (o : Comparison) : Upholds (compare o) := by
  refine (observes_peek 1).upholds.bind fun a => (observes_peek 0).upholds.bind fun b =>
    observes_heap.upholds.bind fun h => ?_
  split
  · exact upholds_replaceTop _ _
  · split
    · exact upholds_replaceTop _ _
    · exact upholds_throw _

theorem upholds_bitwise (op : Bitwise) : Upholds (bitwise op) := by
  refine (observes_peek 1).upholds.bind fun a => (observes_peek 0).upholds.bind fun b =>
    observes_heap.upholds.bind fun h => ?_
  split
  · exact upholds_replaceTop _ _
  · exact upholds_throw _

theorem upholds_increase (delta : Float) : Upholds (increase delta) := by
  refine observes_get.upholds.bind fun m => (observes_peek 0).upholds.bind fun v => ?_
  split
  · exact upholds_replaceTop _ _
  · exact upholds_throw _

theorem upholds_negateTruth : Upholds negateTruth := by
  refine (observes_peek 0).upholds.bind fun v => (upholds_operatorMethod? v _).bind fun found => ?_
  split
  · exact upholds_callClosure _ 0
  · exact upholds_replaceTop _ _

theorem upholds_negate : Upholds negate := by
  refine (observes_peek 0).upholds.bind fun v => observes_get.upholds.bind fun m => ?_
  split
  · exact upholds_replaceTop _ _
  · exact upholds_overloaded _ _ _ _

theorem upholds_equality : Upholds equality :=
  upholds_pop.bind fun _ => upholds_pop.bind fun _ => observes_get.upholds.bind fun _ => upholds_push _

theorem upholds_rangeItems (characters : Bool) (numbers : Array Float) :
    Upholds (rangeItems characters numbers) :=
  .ite ((upholds_mapM upholds_internValue _).bind fun _ => upholds_pure _) (upholds_pure _)

/-- An expanded range is a fresh list, of numbers or of one-character texts. -/
theorem upholds_expand (exclusive : Bool) : Upholds (expand exclusive) := by
  refine upholds_pop.bind fun third => upholds_pop.bind fun second => upholds_pop.bind fun first => ?_
  refine observes_heap.upholds.bind fun h => ?_
  split
  · split
    · exact upholds_throw _
    · dsimp only
      split
      · exact upholds_throw _
      · exact (upholds_rangeItems _ _).bind fun _ => (upholds_allocList _).bind fun _ => upholds_push _
  · exact upholds_throw _

theorem upholds_membership : Upholds membership := by
  refine upholds_pop.bind fun container => upholds_pop.bind fun item =>
    observes_heap.upholds.bind fun h => ?_
  split
  · exact upholds_push _
  · exact upholds_throw _

theorem observes_testType (v : Value) (name : String) : Observes (testType v name) := by
  refine observes_heap.bind fun h => ?_
  dsimp only
  split
  · split
    · exact ((observes_searched _ _).bind fun _ => observes_pure _).bind fun _ => observes_pure _
    · exact observes_pure _
  · exact observes_pure _

/-- An instance may overload it; otherwise the result is an item, a fresh list or a text. -/
theorem upholds_subscript : Upholds subscript := by
  refine (observes_peek 1).upholds.bind fun container => (observes_peek 0).upholds.bind fun index => ?_
  split
  · refine observes_heap.upholds.bind fun h => ?_
    split
    · exact upholds_overloaded _ _ _ _
    · split
      · exact upholds_replaceTop _ _
      · exact (upholds_allocList _).bind fun _ => upholds_replaceTop _ _
      · exact (upholds_internValue _).bind fun _ => upholds_replaceTop _ _
      · exact upholds_throw _
    · exact upholds_throw _
  · exact upholds_throw _

/-- In a list an item is exchanged; in a dict an entry is set, which keeps it valid. -/
theorem upholds_subscriptAssign : Upholds subscriptAssign := by
  refine (observes_peek 2).upholds.bind fun container => (observes_peek 1).upholds.bind fun index =>
    (observes_peek 0).upholds.bind fun value => ?_
  split
  · refine observes_heap.upholds.bind fun h => ?_
    split
    · dsimp only
      split
      · exact upholds_throw _
      · split
        · exact upholds_throw _
        · exact (upholds_modifyList _ _).bind fun _ => upholds_replaceTop _ _
    · split
      · exact (upholds_modifyDict _ fun d hd => (hd.represents.insert _ _).valid).bind fun _ =>
          upholds_replaceTop _ _
      · exact upholds_throw _
    · exact upholds_overloaded _ _ _ _
    · exact upholds_throw _
    · exact upholds_throw _
  · exact upholds_throw _

/-- A literal is filled only if what stands below the item is a list. -/
theorem upholds_addItem : Upholds addItem := by
  refine upholds_pop.bind fun item => (observes_peek 0).upholds.bind fun v => ?_
  split
  · refine observes_heap.upholds.bind fun h => ?_
    split
    · exact upholds_modifyList _ _
    · exact upholds_throw _
  · exact upholds_pure _

/-- An entry is set in the dict below, which keeps it valid. -/
theorem upholds_addEntry : Upholds addEntry := by
  refine upholds_pop.bind fun item => observes_get.upholds.bind fun m => upholds_pop.bind fun k => ?_
  split
  · exact upholds_throw _
  · refine (observes_peek 0).upholds.bind fun v => ?_
    split
    · refine observes_heap.upholds.bind fun h => ?_
      split
      · exact upholds_modifyDict _ fun d hd => (hd.represents.insert _ _).valid
      · exact upholds_throw _
    · exact upholds_pure _

/-! ## Declarations -/

theorem upholds_keepAnswer : Upholds keepAnswer := by
  refine upholds_pop.bind fun v => observes_frame.upholds.bind fun _ => .ite ?_ (upholds_pure _)
  exact observes_get.upholds.bind fun m => upholds_key fun m k hm hk => hm.setGlobal hk v

theorem upholds_newClass (name : Ref) : Upholds (newClass name) :=
  observes_frame.upholds.bind fun _ => (upholds_allocValue ⟨by simp [Heap.NoString, Obj.kind],
    by simp [Obj.tables], by simp⟩).bind fun _ => upholds_push _

theorem upholds_newEnumeration (name : Ref) : Upholds (newEnumeration name) :=
  (upholds_allocValue ⟨by simp [Heap.NoString, Obj.kind], by simp [Obj.tables], by simp⟩).bind
    fun _ => upholds_push _

/-- A class keeps its name and its package. -/
theorem upholdsAt_modifyClass {r : Ref} {f : ClassObj → ClassObj} (hm : m.Proper)
    (hfixed : ∀ c, (Obj.classObj (f c)).fixed = (Obj.classObj c).fixed)
    (hf : ∀ c, (Obj.classObj c).Regular m.heap → (Obj.classObj (f c)).Regular m.heap) :
    UpholdsAt (modifyClass r f) m := by
  refine hm.modify (fun o _ => ?_) fun o _ ho => ?_
  · cases o with
    | classObj c => exact hfixed c
    | _ => rfl
  · cases o with
    | classObj c => exact hf c ho
    | _ => exact ho

/-- A method goes into the table of a class under the key of an interned name. -/
theorem upholdsAt_addMethod {r : Ref} {k : Key} {name : Ref} (hm : m.Proper)
    (hk : m.heap.key? name = some k) (method : Value) :
    UpholdsAt (modifyClass r fun c => { c with methods := c.methods.set k method }) m :=
  upholdsAt_modifyClass hm (fun _ => rfl) fun c hc => by
    simp only [Obj.regular_classObj] at hc ⊢
    exact ⟨hc.1.set hk, hc.2⟩

/-- The fields and statics that a class takes over were keyed by the heap already. -/
theorem upholds_inherit : Upholds inherit := by
  refine upholds_pop.bind fun subclass => observes_get.upholds.bind fun m =>
    (observes_peek 0).upholds.bind fun v => ?_
  split
  · exact upholds_throw _
  · refine observes_get.upholds.bind fun _ => (observes_need _).upholds.bind fun child =>
      upholds_get fun m hm => upholdsAt_need hm fun parent hparent => ?_
    have habove := Obj.regular_classObj.mp (hm.heap.objects _ _ (Heap.class?_eq_some.mp hparent))
    refine upholdsAt_modifyClass hm (fun _ => rfl) fun c hc => ?_
    simp only [Obj.regular_classObj] at hc ⊢
    exact ⟨hc.1, hc.2.1.addAll habove.2.1, hc.2.2.addAll habove.2.2⟩

theorem upholds_defineMethod (name : Ref) : Upholds (defineMethod name) := by
  refine upholds_pop.bind fun method => upholds_pop.bind fun owner =>
    upholds_key fun m k hm hk => observes_get.bind_at hm fun m' => ?_
  split
  · exact upholdsAt_addMethod hm hk method
  · exact upholds_pure _ m hm

/-- A member is a fresh cell, bound in its enumeration under the key of its name. -/
theorem upholds_defineMember (owner name : Ref) (given last : Value) :
    Upholds (defineMember owner name given last) := by
  unfold defineMember
  split
  · exact ((observes_nameText name).bind fun _ => observes_throw _).upholds
  · rename_i value _
    refine upholds_key fun m k hm hk => upholdsAt_alloc ?_
    -- the key is still that of the name when the member is there
    have hmember : Obj.Fresh (.enumMember ⟨owner, name, value⟩) :=
      Obj.fresh_of_kind (by simp [Obj.kind])
    have hk' := (hm.heap.tidy.keeps_alloc (.enumMember ⟨owner, name, value⟩)).evolves.key? hk
    refine (hm.allocFresh hmember).modify (fun o _ => ?_) fun o _ ho => ?_
    · cases o <;> rfl
    · cases o with
      | enumeration e =>
        simp only [Obj.regular_enumeration] at ho ⊢
        exact ho.set hk'
      | _ => exact ho

/-- A field or a static goes into its table under a key of the heap, and an enumeration gets a
member. -/
theorem upholds_defineProperty (name : Ref) (isStatic : Bool) :
    Upholds (defineProperty name isStatic) := by
  refine upholds_pop.bind fun value => upholds_pop.bind fun owner => ?_
  split
  · refine observes_get.upholds.bind fun m => ?_
    split
    · refine upholds_key fun m k hm hk => upholdsAt_modifyClass hm (fun c => ?_) fun c hc => ?_
      · split <;> rfl
      · simp only [Obj.regular_classObj] at hc ⊢
        split
        · exact ⟨hc.1, hc.2.1, hc.2.2.set hk⟩
        · exact ⟨hc.1, hc.2.1.set hk, hc.2.2⟩
    · exact upholds_defineMember _ name _ _
    · exact upholds_throw _
  · exact upholds_throw _

/-- A string is still there after a careful operation, and so is the key. -/
theorem upholdsAt_keeping {x : Exec α} {f : α → Exec β} {name : Ref} {k : Key} (hx : Upholds x)
    (hcareful : Careful x) (hm : m.Proper) (hk : m.heap.key? name = some k)
    (hf : ∀ a m', m'.Proper → m'.heap.key? name = some k → UpholdsAt (f a) m') :
    UpholdsAt (x >>= f) m := by
  have hproper := hx m hm
  have hspares := hcareful m hm.heap.tidy
  refine Meets.bind ?_
  unfold UpholdsAt Meets at hproper
  unfold Meets at hspares ⊢
  cases hxm : x m with
  | ok a m' =>
    rw [hxm] at hproper hspares
    exact hf a m' hproper (hspares.objects.evolves.key? hk)
  | error e m' =>
    rw [hxm] at hproper
    exact hproper

/-- The table of a type is extended, or made if there is none yet; the others stay as they are. -/
theorem keyed_extended {extensions : List (String × Table Value)} {k : Key} {name : Ref}
    (hextensions : ∀ e ∈ extensions, e.2.Keyed h) (hk : h.key? name = some k) (type : String)
    (method : Value) : ∀ e ∈ extended type k method extensions, e.2.Keyed h := by
  induction extensions with
  | nil =>
    intro e he
    obtain rfl := List.mem_singleton.mp he
    exact Table.keyed_empty.set hk
  | cons e rest ih =>
    obtain ⟨hfirst, hrest⟩ := List.forall_mem_cons.mp hextensions
    unfold extended
    split
    · exact List.forall_mem_cons.mpr ⟨hfirst.set hk, hrest⟩
    · exact List.forall_mem_cons.mpr ⟨hfirst, ih hrest⟩

theorem upholds_defineExtension (type name : Ref) : Upholds (defineExtension type name) := by
  refine upholds_pop.bind fun method => upholds_key fun m k hm hk =>
    (observes_nameText type).bind_at hm fun text => ?_
  split
  · exact { hm with extensions := keyed_extended hm.extensions hk text method }
  · refine upholdsAt_keeping (upholds_readGlobal? type) (careful_readGlobal? type) hm hk
      fun found m' hm' hk' => ?_
    split
    · exact upholds_throw _ m' hm'
    · refine observes_get.bind_at hm' fun _ => ?_
      split
      · exact upholdsAt_addMethod hm' hk' method
      · exact upholds_throw _ m' hm'

/-! ## Files -/

theorem upholds_loadSource (path : String) : Upholds (loadSource path) := by
  refine .bind observes_get.upholds fun m =>
    .bind (upholds_modify fun _ hm => hm.outside rfl rfl rfl rfl rfl) fun _ => ?_
  split
  · exact upholds_pure _
  · exact upholds_throw _

theorem upholds_newPackage (name : String) (parent : Option Ref) :
    Upholds (newPackage name parent) :=
  (upholds_intern name).bind fun _ => upholds_alloc ⟨by simp [Heap.NoString, Obj.kind],
    by simp [Obj.tables], by simp⟩

theorem upholds_compileSource (source path : String) : Upholds (compileSource source path) := by
  refine .bind (upholds_modifyGet fun m hm => ?_) fun result => ?_
  · exact hm.withHeap (hm.proper_heap.compile source path) (hm.heap.tidy.compile source path).1.evolves
  · split
    · exact upholds_pure _
    · exact upholds_throw _

/-- Entering a file compiles it and calls the function it was compiled to. -/
theorem upholds_enterFile (source path : String) (package : Option Ref) (required : Bool) :
    Upholds (enterFile source path package required) :=
  observes_guardDepth.upholds.bind fun _ => (upholds_compileSource source path).bind fun _ =>
    observes_get.upholds.bind fun _ => (observes_need _).upholds.bind fun _ =>
    (upholds_alloc (Obj.fresh_of_kind (by simp [Obj.kind]))).bind fun _ =>
    (upholds_push _).bind fun _ => observes_height.upholds.bind fun _ => upholds_enter _

/-- The package is bound before its file is read, and both steps keep the state proper. -/
theorem upholds_importFile : Upholds importFile := by
  refine upholds_pop.bind fun given => observes_get.upholds.bind fun m => upholds_pop.bind fun v => ?_
  split
  · exact upholds_throw _
  · refine observes_heap.upholds.bind fun h => (upholds_loadSource _).bind fun loaded =>
      observes_frame.upholds.bind fun f => ?_
    split
    · exact upholds_enterFile _ _ _ _
    · refine (upholds_newPackage _ _).bind fun package => (upholds_intern _).bind fun name =>
        upholds_key fun m k hm hk => (upholdsAt_define hm hk _).bind fun _ => upholds_enterFile _ _ _ _

theorem upholds_requireFile : Upholds requireFile := by
  refine observes_get.upholds.bind fun m => upholds_pop.bind fun v => ?_
  split
  · exact upholds_throw _
  · exact (upholds_loadSource _).bind fun _ => observes_frame.upholds.bind fun _ =>
      (upholds_newPackage _ _).bind fun _ => upholds_enterFile _ _ _ _

/-! ## Tasks and handlers -/

/-- A new task starts with no shared slot, and its handle is named and numbered once and for all. -/
theorem upholds_spawn (closure : Ref) : Upholds (spawn closure) := by
  refine observes_get.upholds.bind fun _ => ?_
  extract_lets id starts
  have hstarts (u : Unit) : Upholds (starts u) := by
    refine .bind (upholds_modify fun _ hm => hm.outside rfl rfl rfl rfl rfl) fun _ =>
      .bind (upholds_intern _) fun _ =>
      .bind (upholds_alloc (Obj.fresh_of_kind (by simp [Obj.kind]))) fun _ =>
      .bind observes_get.upholds fun _ => .bind (observes_need _).upholds fun _ =>
      .bind observes_get.upholds fun _ => .bind (observes_need _).upholds fun _ =>
      .bind (upholds_modify fun m hm => ?_) fun _ => upholds_pure _
    -- the new fiber has no open cells
    refine hm.congr rfl rfl rfl fun t ht e he => ?_
    rcases ht with rfl | ht
    · exact ⟨m.fiber, .inl rfl, he⟩
    rcases List.mem_append.mp ht with ht | ht
    · exact ⟨t, .inr ht, he⟩
    · obtain rfl := List.mem_singleton.mp ht
      cases he
  exact .ite ((upholds_throw _).bind fun _ => hstarts ()) (hstarts ())

theorem upholds_spawnTop : Upholds spawnTop := by
  refine upholds_pop.bind fun v => ?_
  split
  · exact (upholds_spawn _).bind fun _ => upholds_push _
  · exact upholds_throw _

/-- A task that is aborted leaves the queue, its variables are closed, and its handle is told. -/
theorem upholds_abort (handle : Ref) : Upholds (abort handle) := by
  refine observes_get.upholds.bind fun _ => (observes_need _).upholds.bind fun target =>
    observes_get.upholds.bind fun m => ?_
  extract_lets finds
  have hfinds (u : Unit) : Upholds (finds u) := by
    refine upholds_get fun m hm => ?_
    split
    · exact upholds_pure _ m hm
    · rename_i t ht
      have hmem := List.mem_of_find?_eq_some ht
      obtain ⟨hh, he, -⟩ := hm.proper_heap.reset (hm.cells t (.inr hmem))
      refine .bind ?_ fun _ => upholds_modify fun m hm => hm.endTask _ _ _ _
      exact (hm.withHeap hh he).congr rfl rfl rfl fun t' ht' e he' =>
        ⟨t', ht'.imp id List.mem_of_mem_eraseP, he'⟩
  exact .ite ((upholds_throw _).bind fun _ => hfinds ()) (hfinds ())

theorem upholds_abortTop : Upholds abortTop := by
  refine upholds_pop.bind fun v => ?_
  split
  · exact observes_get.upholds.bind fun _ => .ite (upholds_abort _) (upholds_throw _)
  · exact upholds_throw _

/-- While the task runs the fiber is parked, before this very instruction; afterwards its result is
there. -/
theorem upholds_awaitTask : Upholds awaitTask := by
  refine (observes_peek 0).upholds.bind fun v => ?_
  split
  · refine observes_get.upholds.bind fun m => ?_
    split
    · exact upholds_throw _
    · split
      · exact observes_get.upholds.bind fun _ => .ite (upholds_throw _)
          (.bind (upholds_modifyFiber fun _ _ he => he) fun _ => upholds_modifyIp _)
      · exact upholds_replaceTop _ _
      · exact upholds_replaceTop _ _
  · exact upholds_throw _

/-! ## Instructions -/

theorem upholds_arithmeticStep (op : Arithmetic) (i : Instruction) : Upholds (arithmeticStep op i) :=
  .ite (upholds_elementwise op) (upholds_arithmetic op)

/-- **`upholds_execute`** — every instruction keeps tables and dictionaries in order. -/
theorem upholds_execute (i : Instruction) : Upholds (execute i) := by
  obtain ⟨op, first, second, captures⟩ := i
  have hname (n : Nat) : Upholds (nameConstant n) := (observes_nameConstant n).upholds
  have hframe : Upholds frame := observes_frame.upholds
  have hpeek (n : Nat) : Upholds (peek n) := (observes_peek n).upholds
  -- one case for each operation; those that make an entry take its key from a name
  cases op
  case constant => exact (observes_constant first).upholds.bind fun _ => upholds_push _
  case pushNull | pushTrue | pushFalse => exact upholds_push _
  case concat => exact upholds_concatPieces first
  case range => exact upholds_expand _
  case pop => exact upholds_pop.bind fun _ => upholds_pure _
  case replPop => exact upholds_keepAnswer
  case getLocal =>
    exact hframe.bind fun _ => (observes_stackAt _).upholds.bind fun _ => upholds_push _
  case setLocal => exact hframe.bind fun _ => (hpeek 0).bind fun _ => upholds_setStackAt _ _
  case getGlobal => exact (hname first).bind fun r => (upholds_getGlobal r).bind fun _ => upholds_push _
  case defineGlobal =>
    exact (hname first).bind fun _ => upholds_pop.bind fun v =>
      upholds_key fun m k hm hk => upholdsAt_define hm hk v
  case defineGlobalForced =>
    exact (hname first).bind fun _ => upholds_pop.bind fun v =>
      upholds_key fun m k hm hk => hm.setGlobal hk v
  case setGlobal => exact (hname first).bind fun _ => (hpeek 0).bind fun _ => upholds_setGlobal _ _
  case getUpvalue =>
    exact (observes_upvalueCell first).upholds.bind fun _ => (observes_readUpvalue _).upholds.bind
      fun _ => upholds_push _
  case setUpvalue =>
    exact (observes_upvalueCell first).upholds.bind fun _ => (hpeek 0).bind fun _ =>
      upholds_writeUpvalue _ _
  case getProperty =>
    exact (hpeek 0).bind fun _ => (hname first).bind fun _ => (upholds_getProperty _ _).bind fun _ =>
      upholds_replaceTop _ _
  case getPropertyNoPop =>
    exact (hpeek 0).bind fun _ => (hname first).bind fun _ => (upholds_getProperty _ _).bind fun _ =>
      upholds_push _
  case setProperty =>
    exact (hpeek 0).bind fun _ => (hpeek 1).bind fun _ => (hname first).bind fun _ =>
      (upholds_setProperty _ _ _).bind fun _ => upholds_replaceTop _ _
  case getSuper =>
    exact upholds_pop.bind fun _ => upholds_pop.bind fun _ => (hname first).bind fun _ =>
      (observes_superMethod _ _).upholds.bind fun _ => (upholds_bindMethod _ _).bind fun _ =>
      upholds_push _
  case equal => exact upholds_equality
  case greater | less => exact upholds_compare _
  case add | subtract | multiply | divide | modulo | power => exact upholds_arithmeticStep _ _
  case inc | dec => exact upholds_increase _
  case shiftLeft | shiftRight | bitwiseAnd | bitwiseOr => exact upholds_bitwise _
  case contains => exact upholds_membership
  case isType =>
    exact (hname second).bind fun _ => (observes_nameText _).upholds.bind fun _ =>
      upholds_pop.bind fun _ => (observes_testType _ _).upholds.bind fun _ => upholds_push _
  case not => exact upholds_negateTruth
  case negate => exact upholds_negate
  case jump => exact upholds_modifyIp (· + first)
  case loop => exact upholds_modifyIp (· - first)
  case jumpIfFalse => exact (hpeek 0).bind fun _ => .ite (upholds_modifyIp _) (upholds_pure _)
  case dup => exact (hpeek 0).bind fun _ => upholds_push _
  case importFile => exact upholds_importFile
  case requireFile => exact upholds_requireFile
  case newList => exact (upholds_allocList _).bind fun _ => upholds_push _
  case newDict => exact (upholds_allocDict Dict.represents_empty.valid).bind fun _ => upholds_push _
  case addList => exact upholds_addItem
  case addDict => exact upholds_addEntry
  case subscript => exact upholds_subscript
  case subscriptAssign => exact upholds_subscriptAssign
  case call => exact (hpeek first).bind fun _ => upholds_callValue _ first
  case invoke => exact (hname second).bind fun _ => upholds_invoke _ first
  case superInvoke =>
    exact (hname second).bind fun _ => upholds_pop.bind fun _ => upholds_invokeSuper _ _ first
  case closure => exact (hname first).bind fun _ => upholds_makeClosure _ captures
  case closeUpvalue => exact upholds_closeTop
  case ret => exact upholds_returnFromFrame
  case classDef => exact (hname first).bind fun _ => upholds_newClass _
  case inherit => exact upholds_inherit
  case method => exact (hname first).bind fun _ => upholds_defineMethod _
  case member => exact (hname first).bind fun _ => upholds_defineProperty _ _
  case extend =>
    exact (hname first).bind fun _ => (hname second).bind fun _ => upholds_defineExtension _ _
  case enumDef => exact (hname first).bind fun _ => upholds_newEnumeration _
  case spawn => exact upholds_spawnTop
  case awaitTask => exact upholds_awaitTask
  case abortTask => exact upholds_abortTop
  case tryBegin => exact .bind hframe fun _ => upholds_modifyFiber fun _ _ he => he
  case tryEnd => exact .bind (upholds_modifyFiber fun _ _ he => he) fun _ => upholds_modifyIp _
  case nop => exact upholds_pure _

/-- Whatever is fetched next, its execution keeps the state proper. -/
theorem upholds_step : Upholds step := by
  refine observes_frame.upholds.bind fun f => observes_heap.upholds.bind fun h => ?_
  split
  · exact .bind (upholds_modify fun _ hm => hm.outside rfl rfl rfl rfl rfl) fun _ =>
      (upholds_modifyIp _).bind fun _ => upholds_execute _
  · exact (upholds_modifyIp _).bind fun _ => upholds_throw _

end Exec

end ScriptMachine
