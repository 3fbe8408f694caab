import ScriptMachine.Proofs.Code.WellFormed
import ScriptMachine.Proofs.Compiler.Loading

/-!
# ScriptMachine.Proofs.Compiler.Accepted — the functions of an accepted text

What the discipline of the image means for the functions that `compile` puts into the heap: their
code is well formed, down to every function that can be reached through constants, and there is one
height of the stack for every instruction.

Both main statements are read off a listing. The compiler leaves one for every function of an image
(`SoundItem`), and loading the image changes nothing but references, from items to slots of the heap. So
what an operand named in the image, it names in the heap (`Image.Loaded.name`, `Image.Loaded.function`),
and whatever can be reached from the script through constants is again an item
(`Image.Loaded.constantGraph`).

Nothing is said of texts that are refused: they are translated as well, but no function of theirs is
ever run. Neither is it said here that executing an instruction has the effect that the heights count
with. That is proved of the machine, in `Machine.Valid.step` and `Machine.Reachable.balances`.
-/

namespace ScriptMachine

open Compiler (SoundImage SoundItem translate)

variable {refs : Array Ref} {image : Image} {h : Heap} {k : Nat} {p : Prototype}
  {statements closures : List Landmark} {listing : List Placed}

/-- A function's constants were made before it. -/
theorem Compiler.SoundImage.refersBack (hs : SoundImage image) : image.RefersBack := by
  intro k p statements closures hk
  have hitem := hs k p statements closures hk
  exact ⟨hitem.refs, fun r hr => (hitem.name r hr).1, fun r hr => (hitem.path r hr).1⟩

/-- A constant that stands for an item of the image stands for its place in the heap. -/
theorem Prototype.constant?_relocate {index : Nat} {r r' : Ref}
    (hr : p.chunk.constants[index]? = some (.obj r)) (hr' : refs[r.index]? = some r') :
    (p.relocate refs).chunk.constant? index = some (.obj r') := by
  unfold Chunk.constant? Prototype.relocate
  rw [Array.getElem?_map, hr]
  simp [Value.relocate, Ref.relocate, hr']

/-- A name of an image is a string of the heap. -/
theorem Image.Loaded.name (hl : image.Loaded refs h) {index : Nat}
    (hname : (Compiler.pool image p.chunk.constants p.captureCount).isName index) :
    ∃ r s, (p.relocate refs).chunk.constant? index = some (.obj r) ∧ h.text? r = some s := by
  obtain ⟨r, s, hr, hs⟩ := hname
  obtain ⟨r', hr', hholds⟩ := hl.holds _ _ hs
  exact ⟨r', s, Prototype.constant?_relocate hr hr', hholds⟩

/-- A function of an image is a function of the heap. -/
theorem Image.Loaded.function (hl : image.Loaded refs h) {index count : Nat}
    (hfunction : (Compiler.pool image p.chunk.constants p.captureCount).isFunction index count) :
    ∃ r p', (p.relocate refs).chunk.constant? index = some (.obj r) ∧ h.prototype? r = some p' ∧
      count = p'.captureCount := by
  obtain ⟨r, p', statements, closures, hr, hp', hcount⟩ := hfunction
  obtain ⟨r', hr', hholds⟩ := hl.holds _ _ hp'
  exact ⟨r', p'.relocate refs, Prototype.constant?_relocate hr hr', hholds, hcount.symm⟩

/-- A loaded function captures as many variables as the image says. -/
theorem Image.Loaded.captureCount (hl : image.Loaded refs h) {index count : Nat}
    (hfunction : (Compiler.pool image p.chunk.constants p.captureCount).isFunction index count) :
    (p.relocate refs).chunk.captureCount h index = count := by
  obtain ⟨r, p', hr, hp', hcount⟩ := hl.function hfunction
  rw [Chunk.captureCount, hr]
  simp [hp', hcount]

/-- **`SoundItem.wellFormed`** — a function of an image is well formed once it is in the heap. -/
theorem Compiler.SoundItem.wellFormed (hs : SoundItem image k p statements closures)
    (hl : image.Loaded refs h) :
    ∃ code, (p.relocate refs).WellFormed h closures code := by
  obtain ⟨listing, hd, hannotates⟩ := hs.disciplined
  refine ⟨instructionsOf listing, ?_⟩
  -- an instruction of the listing suits its situation, and each field asks for a part of that
  have hsuits : ∀ q ∈ instructionsOf listing, ∃ r ∈ listing, r.offset = q.1 ∧ r.instr = q.2 :=
    fun q hq => mem_instructionsOf.mp hq
  constructor
  case meant => exact hannotates.meant
  case splits =>
    exact Disciplined.splits (c := (p.relocate refs).chunk) hd fun k n => hl.captureCount (p := p)
  case bytes =>
    rw [show (p.relocate refs).chunk.code = p.chunk.code from rfl, hd.code_eq]
    simp [codeOf, instructionsOf, List.flatMap_map]
  case inRange =>
    intro q hq
    obtain ⟨r, hr, -, hinstr⟩ := hsuits q hq
    exact hinstr ▸ (hd.suits r hr).inRange
  case last =>
    obtain ⟨q, hq, hop⟩ := hd.last
    refine ⟨(q.offset, q.instr), ?_, hop⟩
    rw [instructionsOf, List.getLast?_map, Option.mem_def.mp hq]
    rfl
  case target =>
    intro q hq t ht
    obtain ⟨r, hr, hoffset, hinstr⟩ := hsuits q hq
    rw [← hoffset, ← hinstr] at ht
    obtain ⟨r', hr', htarget⟩ := hd.target hr ht
    exact ⟨r'.instr, mem_instructionsOf.mpr ⟨r', hr', htarget, rfl⟩⟩
  case back =>
    intro q hq hop
    obtain ⟨r, hr, hoffset, hinstr⟩ := hsuits q hq
    rw [← hoffset, ← hinstr]
    exact (hd.suits r hr).back (hinstr ▸ hop)
  case constants =>
    simpa [Prototype.relocate] using hs.constants
  case constant =>
    intro q hq hop
    obtain ⟨r, hr, -, hinstr⟩ := hsuits q hq
    have hlt : r.instr.first < p.chunk.constants.size := (hd.suits r hr).constant (hinstr ▸ hop)
    rw [← hinstr]
    simpa [Prototype.relocate] using hlt
  case name =>
    intro q hq index hindex
    obtain ⟨r, hr, -, hinstr⟩ := hsuits q hq
    exact hl.name ((hd.suits r hr).names index (hinstr ▸ hindex))
  case closure =>
    intro q hq hop
    obtain ⟨r, hr, -, hinstr⟩ := hsuits q hq
    rw [← hinstr]
    exact hl.function ((hd.suits r hr).function (hinstr ▸ hop))
  case captured =>
    intro q hq c hc
    obtain ⟨r, hr, hoffset, hinstr⟩ := hsuits q hq
    rw [← hinstr] at hc
    have hcaptured := (hd.suits r hr).captured c hc
    -- captured locals are those of the note for the closure, which the compiler made when it stood
    -- there
    cases hlocal : c.isLocal with
    | false =>
      rw [hlocal] at hcaptured
      exact hcaptured
    | true =>
      have hop : r.instr.op = .closure := by
        by_contra hne
        have := (hd.suits r hr).inRange.captures_eq_nil hne
        rw [this] at hc
        cases hc
      obtain ⟨l, hmem, hplace, hlocals⟩ := hd.closures r hr hop
      simp only [if_true]
      exact ⟨l, hmem, hplace.trans hoffset, hlocals c hc hlocal⟩
  case upvalue =>
    intro q hq hop
    obtain ⟨r, hr, -, hinstr⟩ := hsuits q hq
    rw [← hinstr] at hop ⊢
    exact (hd.suits r hr).capture hop

/-- **`SoundItem.balanced`** — there is one height for every instruction of a function. -/
theorem Compiler.SoundItem.balanced (hs : SoundItem image k p statements closures)
    (hl : image.Loaded refs h) :
    ∃ height, (p.relocate refs).Balanced h statements height := by
  obtain ⟨listing, hd, -⟩ := hs.disciplined
  have hsplits := Disciplined.splits (c := (p.relocate refs).chunk) hd fun k n =>
    hl.captureCount (p := p)
  exact ⟨heightIn listing, Disciplined.balanced (p := p.relocate refs) hd hsplits⟩

/-- What refers to a function by a constant refers to a function of the image. -/
theorem Image.Loaded.constantGraph (hl : image.Loaded refs h) (hs : SoundImage image) {r f : Ref}
    (hr : image[r.index]? = some (.function p statements closures))
    (hf : ConstantGraph h (r.relocate refs) f) :
    ∃ (k : Nat) (p : Prototype) (statements closures : List Landmark),
      image[k]? = some (.function p statements closures) ∧ refs[k]? = some f := by
  induction hf with
  | root =>
    obtain ⟨r', hr', -⟩ := hl.holds _ _ hr
    refine ⟨r.index, p, statements, closures, hr, ?_⟩
    simp [Ref.relocate, hr']
  | @constant f g p' q hf hp' hg hq ih =>
    obtain ⟨k, p, statements, closures, hk, hfk⟩ := ih
    obtain ⟨f', hf', hholds⟩ := hl.holds k _ hk
    obtain rfl : f' = f := Option.some.inj (hf'.symm.trans hfk)
    obtain rfl : p.relocate refs = p' := Option.some.inj (hholds.symm.trans hp')
    -- the constant was a reference to an earlier item, which is a function like `g`
    obtain ⟨v, hv, hvg⟩ := Array.mem_map.mp hg
    cases v with
    | obj r₀ =>
      have hlt := (hs k p statements closures hk).refs r₀ hv
      have hsize : k < image.size := (Array.getElem?_eq_some_iff.mp hk).1
      obtain ⟨item, hitem⟩ : ∃ item, image[r₀.index]? = some item :=
        ⟨_, Array.getElem?_eq_getElem (Nat.lt_trans hlt hsize)⟩
      obtain ⟨r', hr', hholds'⟩ := hl.holds _ _ hitem
      obtain rfl : r' = g := by
        have := Value.obj.inj hvg
        simpa [Ref.relocate, hr'] using this
      cases item with
      | text s =>
        obtain ⟨hash, hget⟩ := Heap.text?_eq_some.mp hholds'
        rw [Heap.prototype?_eq_some, hget] at hq
        cases hq
      | function q' statements' closures' =>
        exact ⟨r₀.index, q', statements', closures', hitem, hr'⟩
    | _ => cases hvg

/-- An accepted text is translated to a sound image, which is loaded. -/
theorem compile_ok {heap heap' : Heap} {source path : String} {r : Ref} (ht : heap.Tidy)
    (hc : compile heap source path = (.ok r, heap')) :
    ∃ r₀ image refs, translate source path = (.ok r₀, image) ∧ r = r₀.relocate refs ∧
      SoundImage image ∧ image.Loaded refs heap' ∧ heap'.Tidy ∧
      ∃ p statements closures, image[r₀.index]? = some (.function p statements closures) ∧
        p.arity = 0 ∧ p.captureCount = 0 := by
  cases htranslate : translate source path with
  | mk result image =>
    have hpaused : heap.pause.Tidy := ⟨ht.vacant, ht.distinct⟩
    simp only [compile, htranslate] at hc
    obtain ⟨hresult, hheap⟩ := Prod.mk.inj hc
    cases result with
    | error errors => cases hresult
    | ok r₀ =>
      obtain ⟨hsound, hscript⟩ := Compiler.translate_sound htranslate
      obtain ⟨hloaded, htidy⟩ := Image.loaded_load hsound.refersBack hpaused
      refine ⟨r₀, image, (image.load heap.pause).1, rfl, (Except.ok.inj hresult).symm, hsound, ?_, ?_,
        hscript⟩
      · rw [← hheap]
        exact ⟨hloaded.size, hloaded.holds⟩
      · rw [← hheap]
        exact ⟨htidy.vacant, htidy.distinct⟩

/-- **`compile_wellFormed`** — every function in the constant graph of an accepted text is well
formed. It is a function of the image that the text was translated to, which knows where closures
are made. -/
theorem compile_wellFormed {heap heap' : Heap} {source path : String} {r f : Ref}
    (ht : heap.Tidy) (hc : compile heap source path = (.ok r, heap'))
    (hf : ConstantGraph heap' r f) :
    ∃ (k : Nat) (p : Prototype) (statements closures : List Landmark) (refs : Array Ref)
      (code : List (Nat × Instruction)),
      (translate source path).2[k]? = some (.function p statements closures) ∧
      heap'.prototype? f = some (p.relocate refs) ∧
      (p.relocate refs).WellFormed heap' closures code := by
  obtain ⟨r₀, image, refs, htranslate, rfl, hsound, hloaded, -, p, statements, closures, hscript, -⟩ :=
    compile_ok ht hc
  obtain ⟨k, p, statements, closures, hk, hfk⟩ := hloaded.constantGraph hsound hscript hf
  obtain ⟨f', hf', hholds⟩ := hloaded.holds k _ hk
  obtain rfl : f' = f := Option.some.inj (hf'.symm.trans hfk)
  obtain ⟨code, hcode⟩ := (hsound k p statements closures hk).wellFormed hloaded
  refine ⟨k, p, statements, closures, refs, code, ?_, hholds, hcode⟩
  rw [htranslate]
  exact hk

theorem translate_eq_ok {source path : String} {r : Ref}
    (h : (translate source path).1.toOption = some r) :
    translate source path = (.ok r, (translate source path).2) := by
  refine Prod.ext ?_ rfl
  revert h
  generalize (translate source path).1 = result
  cases result with
  | error errors => simp [Except.toOption]
  | ok r' => exact fun h => congrArg _ (Option.some.inj h)

/-- A text with a function in it is accepted. -/
theorem translate_function :
    ∃ image, translate "func f(x) \x7b return x; \x7d" "a" = (.ok ⟨5⟩, image) :=
  ⟨_, translate_eq_ok (by decide +kernel)⟩

/-- A text that translates compiles in any heap. -/
theorem compile_of_translate (heap : Heap) {source path : String} {r : Ref} {image : Image}
    (h : translate source path = (.ok r, image)) :
    ∃ r' heap', compile heap source path = (.ok r', heap') := by
  simp [compile, h, Except.map]

/-- A text that calls a function with two arguments. -/
def callText : String :=
  "func f(x, y) \x7b return x; \x7d f(1, 2);"

/-- The text is accepted, and its script is meant to call with two arguments. -/
theorem compile_callText :
    ∃ r heap', compile (Heap.new {}) callText "a" = (.ok r, heap') ∧
      ∀ p ∈ heap'.prototype? r, ∃ q ∈ p.chunk.meant.toList, q.2 = .make .call 2 0 := by
  have hrun : (match compile (Heap.new {}) callText "a" with
      | (.ok r, heap') => (heap'.prototype? r).all fun p =>
          p.chunk.meant.toList.any fun q => q.2 = .make .call 2 0
      | (.error _, _) => false) = true := by decide +kernel
  revert hrun
  generalize compile (Heap.new {}) callText "a" = result
  obtain ⟨_ | r, heap'⟩ := result
  · simp
  · intro hall
    refine ⟨r, heap', rfl, fun p hp => ?_⟩
    have hany := (Option.all_eq_true _ _).mp hall
    obtain ⟨q, hq, hcall⟩ := List.any_eq_true.mp (hany p (Option.mem_def.mp hp))
    exact ⟨q, hq, of_decide_eq_true hcall⟩

theorem compile_wellFormed_call :
    ∃ r heap', compile (Heap.new {}) callText "a" = (.ok r, heap') ∧
      ∃ p closures code, heap'.prototype? r = some p ∧ p.WellFormed heap' closures code ∧
        ∃ q ∈ code, q.2 = .make .call 2 0 := by
  obtain ⟨r, heap', hc, hcalls⟩ := compile_callText
  obtain ⟨k, p, statements, closures, refs, code, -, hp, hcode⟩ :=
    compile_wellFormed (Heap.new_tidy {}) hc .root
  exact ⟨r, heap', hc, p.relocate refs, closures, code, hp, hcode, hcode.meant ▸ hcalls _ hp⟩

/-- **`compile_balanced`** — every function that an accepted text is compiled to has one height of
the stack for every instruction. A machine that runs the function has these heights, by
`Machine.Reachable.balances`. -/
theorem compile_balanced {heap heap' : Heap} {source path : String} {r : Ref} (ht : heap.Tidy)
    (hc : compile heap source path = (.ok r, heap')) {k : Nat} {p : Prototype}
    {statements closures : List Landmark}
    (hk : (translate source path).2[k]? = some (.function p statements closures)) :
    ∃ f p' height, heap'.prototype? f = some p' ∧ p'.arity = p.arity ∧
      p'.chunk.code = p.chunk.code ∧ p'.Balanced heap' statements height := by
  obtain ⟨r₀, image, refs, htranslate, rfl, hsound, hloaded, -⟩ := compile_ok ht hc
  rw [htranslate] at hk
  obtain ⟨f, hf, hholds⟩ := hloaded.holds k _ hk
  obtain ⟨height, hheight⟩ := (hsound k p statements closures hk).balanced hloaded
  exact ⟨f, p.relocate refs, height, hholds, rfl, rfl, hheight⟩

/-- A function with three statements, one of them in a loop. -/
def loopText : String :=
  "func f(n) \x7b while (n > 0) n -= 1; return n; \x7d"

/-- Where the statements of an item start. -/
def Item.starts : Item → List Landmark
  | .text _ => []
  | .function _ statements _ => statements

/-- The text is accepted; its function is the item before the script. -/
theorem compile_loopText :
    ∃ (r : Ref) (heap' : Heap) (p : Prototype) (statements closures : List Landmark),
      compile (Heap.new {}) loopText "a" = (.ok r, heap') ∧
      (translate loopText "a").2[4]? = some (.function p statements closures) ∧
      statements = [⟨30, 3⟩, ⟨14, 3⟩, ⟨3, 3⟩] := by
  have hok : (translate loopText "a").1.toOption = some ⟨5⟩ := by decide +kernel
  have hitem : (translate loopText "a").2[4]?.map Item.starts =
      some [⟨30, 3⟩, ⟨14, 3⟩, ⟨3, 3⟩] := by decide +kernel
  obtain ⟨r, heap', hc⟩ := compile_of_translate (Heap.new {}) (translate_eq_ok hok)
  obtain ⟨item, hfound, hstatements⟩ := Option.map_eq_some_iff.mp hitem
  cases item with
  | text => cases hstatements
  | function p statements closures =>
    exact ⟨r, heap', p, statements, closures, hc, hfound, hstatements⟩

/-- In the loop the stack holds the callee, the parameter and the array of arguments. -/
theorem compile_balanced_loop :
    ∃ (r : Ref) (heap' : Heap) (k : Nat) (p : Prototype) (statements closures : List Landmark),
      compile (Heap.new {}) loopText "a" = (.ok r, heap') ∧
      (translate loopText "a").2[k]? = some (.function p statements closures) ∧
      statements = [⟨30, 3⟩, ⟨14, 3⟩, ⟨3, 3⟩] ∧
      ∃ f p' height, heap'.prototype? f = some p' ∧ p'.Balanced heap' statements height ∧
        height 14 = some 3 := by
  obtain ⟨r, heap', p, statements, closures, hc, hk, hstatements⟩ := compile_loopText
  obtain ⟨f, p', height, hf, -, -, hheight⟩ := compile_balanced (Heap.new_tidy {}) hc hk
  refine ⟨r, heap', 4, p, statements, closures, hc, hk, hstatements, f, p', height, hf, hheight, ?_⟩
  exact hheight.statement ⟨14, 3⟩ (by simp [hstatements])

end ScriptMachine
