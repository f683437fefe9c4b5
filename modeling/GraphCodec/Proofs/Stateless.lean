import GraphCodec.Proofs.Direct

/-!
# Codecs — nothing is left from one pass to the next

A codec that is used again and again keeps cells from one use to the next, but nobody can tell: any
sequence of passes and changes of configuration gives the answers of direct passes, on a codec with
the same registrations and settings that has no cells at all (`perform_eq_direct`).  Between two
uses no arguments are left for any record serializer.
-/

namespace GraphCodec

namespace Codec

/-- A pass over a whole value. -/
inductive Call
  | write (h : Heap) (out : Output) (v : Value)
  | writeUntagged (h : Heap) (out : Output) (v : Value) (args : List ConcreteType)
  | read (depth : Nat) (h : Heap) (input : Input)
  | readUntagged (depth : Nat) (h : Heap) (input : Input) (t : ValueType)
      (args : List ConcreteType)
  | copy (h : Heap) (v : Value)

/-- A change of configuration. -/
inductive Change
  | setOptions (owner : ClassId) (options : FieldOptions)
  | removeField (owner : ClassId) (name : String)
  | removeFields (owner : ClassId) (condition : FieldEntry → Bool)
  | setContext (context : Table String String)

/-- One use of a codec. -/
inductive Use
  | call (x : Call)
  | change (x : Change)

/-- What comes back from one use. -/
inductive Answer
  | written (result : Except Failure Unit) (output : Output)
  | wasRead (result : Except Failure Value) (input : Input) (heap : Heap)
  | copied (result : Except Failure Value) (heap : Heap)
  | changed (result : Except ConfigError Unit)

namespace Answer

def ofWritten (w : Written) : Answer := .written w.result w.output

def ofWasRead (w : WasRead) : Answer := .wasRead w.result w.input w.heap

def ofCopied (w : Copied) : Answer := .copied w.result w.heap

end Answer

/-- The codec makes the pass with its cells, and goes on with what the pass leaves in them. -/
def runCall (c : Codec) : Call → Answer × Codec
  | .write h out v =>
    let w := c.writeValue h out v
    (.ofWritten w, w.codec)
  | .writeUntagged h out v args =>
    let w := c.writeUntagged h out v args
    (.ofWritten w, w.codec)
  | .read depth h input =>
    let w := c.readValue depth h input
    (.ofWasRead w, w.codec)
  | .readUntagged depth h input t args =>
    let w := c.readUntagged depth h input t args
    (.ofWasRead w, w.codec)
  | .copy h v => (.ofCopied (c.copy h v), c)

/-- What the pass gives when it is made directly, by itself. -/
def directAnswer (c : Codec) : Call → Answer
  | .write h out v =>
    .ofWritten (c.runWrite out (c.writeTagged h (c.writeDirect h (writeDepth h)) v))
  | .writeUntagged h out v args =>
    .ofWritten (c.runWrite out (c.writeFlat h (c.writeDirect h (writeDepth h)) v args))
  | .read depth h input => .ofWasRead (c.runRead h input (c.readTagged (c.readDirect depth)))
  | .readUntagged depth h input t args =>
    .ofWasRead (c.runRead h input (c.readFlat (c.readDirect depth) t args))
  | .copy h v => .ofCopied (c.copy h v)

/-- The codec with the change made. -/
def changed (c : Codec) : Change → Except ConfigError Codec
  | .setOptions owner options => do
    let (_, k) ← c.setOptions owner options
    return k
  | .removeField owner name => do
    let (_, _, k) ← c.removeField owner name
    return k
  | .removeFields owner condition => do
    let (_, k) ← c.removeFields owner condition
    return k
  | .setContext context => return c.setContext context

/-- Makes the change, if that is possible. -/
def runChange (c : Codec) (x : Change) : Answer × Codec :=
  match c.changed x with
  | .ok k => (.changed (.ok ()), k)
  | .error e => (.changed (.error e), c)

/-- The answers to a sequence of uses, and the codec after them. -/
def perform (c : Codec) : List Use → List Answer × Codec
  | [] => ([], c)
  | use :: rest =>
    let (a, k) := match use with
      | .call x => c.runCall x
      | .change x => c.runChange x
    let (as, k) := k.perform rest
    (a :: as, k)

/-- The answers to a sequence of uses with direct passes, none of which leaves anything. -/
def performDirect (c : Codec) : List Use → List Answer × Codec
  | [] => ([], c)
  | use :: rest =>
    let (a, k) := match use with
      | .call x => (c.directAnswer x, c)
      | .change x => c.runChange x
    let (as, k) := k.performDirect rest
    (a :: as, k)

/-- The codec with the same registrations and settings and without cells. -/
def withoutCells (c : Codec) : Codec := c.withCells .empty

open Pass

variable {c : Codec} {rs : List RecordSerializer}

/-! ### Changes -/

theorem invalidate_empty (n : Nat) : ArgumentCells.empty.invalidate n = .empty := by
  simp [ArgumentCells.invalidate, ArgumentCells.set, ArgumentCells.empty]

theorem reshape_withoutCells (c : Codec) (t : ValueType) (r : RecordSerializer) :
    c.withoutCells.reshape t r = (c.reshape t r).withoutCells := by
  show ({ c.putRecord t r with cells := ArgumentCells.empty.invalidate r.cell } : Codec) = _
  rw [invalidate_empty]
  rfl

theorem setContext_withoutCells (c : Codec) (context : Table String String) :
    c.withoutCells.setContext context = (c.setContext context).withoutCells := by
  have hfold : ∀ l : List RecordSerializer,
      l.foldl (fun cells s => cells.invalidate s.cell) ArgumentCells.empty = .empty := by
    intro l
    induction l with
    | nil => rfl
    | cons r l ih => rw [List.foldl_cons, invalidate_empty, ih]
  simp only [setContext, withoutCells, withCells, hfold]

/-- No change asks for the cells. -/
theorem changed_withoutCells (c : Codec) (x : Change) :
    c.withoutCells.changed x = (c.changed x).map withoutCells := by
  have hrecord : ∀ t, c.withoutCells.record t = c.record t := fun _ => rfl
  cases x with
  | setOptions owner options =>
      simp only [changed, setOptions, hrecord]
      cases c.record (.object owner) with
      | error e => rfl
      | ok r => exact congrArg Except.ok (reshape_withoutCells c _ _)
  | removeField owner name =>
      simp only [changed, removeField, hrecord]
      cases c.record (.object owner) with
      | error e => rfl
      | ok r =>
          simp only [bind, Except.bind]
          cases r.entry name with
          | error e => rfl
          | ok e => exact congrArg Except.ok (reshape_withoutCells c _ _)
  | removeFields owner condition =>
      simp only [changed, removeFields, hrecord]
      cases c.record (.object owner) with
      | error e => rfl
      | ok r => exact congrArg Except.ok (reshape_withoutCells c _ _)
  | setContext context => exact congrArg Except.ok (setContext_withoutCells c context)

theorem runChange_withoutCells (c : Codec) (x : Change) :
    c.withoutCells.runChange x = ((c.runChange x).1, (c.runChange x).2.withoutCells) := by
  simp only [runChange, changed_withoutCells]
  cases c.changed x <;> rfl

/-! ### Passes -/

theorem ofWritten_direct (hc : c.Lists rs) (out : Output) {body body' : WriteM Unit}
    (hb : Agrees (WriteState.Matches (QuietFirst rs) []) body body') :
    Answer.ofWritten (c.withoutCells.runWrite out body') =
      Answer.ofWritten (c.runWrite out body) := by
  obtain ⟨h₁, h₂⟩ := hb ⟨out, .empty, [], ⟨.empty, c.cells⟩⟩ ⟨out, .empty, [], ⟨.empty, .empty⟩⟩
    ⟨rfl, rfl, rfl, rfl, rfl, hc.quiet⟩
  exact congrArg₂ Answer.written h₁ h₂.output

theorem ofWasRead_direct (hc : c.Lists rs) (h : Heap) (input : Input) {body body' : ReadM Value}
    (hb : Agrees (ReadState.Matches (QuietFirst rs) input.rest.length) body body') :
    Answer.ofWasRead (c.withoutCells.runRead h input body') =
      Answer.ofWasRead (c.runRead h input body) := by
  obtain ⟨h₁, h₂⟩ := hb ⟨input, h, .empty, ⟨.empty, c.cells⟩⟩ ⟨input, h, .empty, ⟨.empty, .empty⟩⟩
    ⟨rfl, rfl, rfl, rfl, hc.quiet, le_rfl, nofun⟩
  simp only [Answer.ofWasRead, Answer.wasRead.injEq]
  exact ⟨h₁, h₂.input, h₂.heap⟩

/-- A pass answers as the direct one does, and leaves a codec that differs in its cells only. -/
theorem runCall_direct (hc : c.Lists rs) (x : Call) :
    c.withoutCells.directAnswer x = (c.runCall x).1 ∧
      (c.runCall x).2.withoutCells = c.withoutCells := by
  have hwrite : ∀ h : Heap, ∀ f v, _ := fun h f v =>
    agrees_writeDirect (h := h) (A := []) hc .empty (writeDepth h) f v
  have hread : ∀ depth k f, _ := fun depth k f =>
    agrees_readDirect (k := k) hc .empty depth f
  cases x with
  | write h out v =>
      exact ⟨ofWritten_direct hc out (agrees_writeTagged hc (hwrite h) v), rfl⟩
  | writeUntagged h out v args =>
      exact ⟨ofWritten_direct hc out (agrees_writeFlat hc (hwrite h) v args), rfl⟩
  | read depth h input =>
      exact ⟨ofWasRead_direct hc h input (agrees_readTagged hc (hread depth _)), rfl⟩
  | readUntagged depth h input t args =>
      exact ⟨ofWasRead_direct hc h input (agrees_readFlat hc (hread depth _) t args), rfl⟩
  | copy h v => exact ⟨congrArg Answer.ofCopied (copy_withCells c .empty h v), rfl⟩

theorem Standard.runCall (hc : c.Standard) (x : Call) : (c.runCall x).2.Standard := by
  cases x with
  | write h out v => exact hc.writeValue h out v
  | writeUntagged h out v args => exact hc.writeUntagged h out v args
  | read depth h input => exact hc.readValue depth h input
  | readUntagged depth h input t args => exact hc.readUntagged depth h input t args
  | copy h v => exact hc

theorem Standard.runChange (hc : c.Standard) (x : Change) : (c.runChange x).2.Standard := by
  simp only [Codec.runChange]
  cases hx : c.changed x with
  | error e => exact hc
  | ok k =>
      cases x with
      | setOptions owner options =>
          obtain ⟨⟨r, k'⟩, hk, ⟨⟩⟩ := except_bind_eq_ok.mp hx
          exact hc.setOptions hk
      | removeField owner name =>
          obtain ⟨⟨e, r, k'⟩, hk, ⟨⟩⟩ := except_bind_eq_ok.mp hx
          exact hc.removeField hk
      | removeFields owner condition =>
          obtain ⟨⟨r, k'⟩, hk, ⟨⟩⟩ := except_bind_eq_ok.mp hx
          exact hc.removeFields hk
      | setContext context =>
          cases hx
          exact hc.setContext context

/-- **Cells cannot be observed.**  Whatever a standard codec is used for, and whether a use ends
well or not, all answers are those of direct passes without cells; and in the end no arguments are
left for any registered record serializer. -/
theorem perform_eq_direct (hc : c.Standard) (uses : List Use) :
    (c.withoutCells.performDirect uses).1 = (c.perform uses).1 ∧
      (c.withoutCells.performDirect uses).2 = (c.perform uses).2.withoutCells ∧
      ∀ t r exposed, ⟨t, .record r, exposed⟩ ∈ (c.perform uses).2.registrations →
        ((c.perform uses).2.cells.get r.cell).pending = none := by
  induction uses generalizing c with
  | nil =>
      refine ⟨rfl, rfl, fun t r exposed hr => ?_⟩
      obtain ⟨rs, hc⟩ := hc.lists
      obtain ⟨n, hn⟩ := List.getElem?_of_mem hr
      cases hc.served_of_registrationAt? hn with
      | record hmem => exact hc.quiet.pending _ hmem
  | cons use uses ih =>
      cases use with
      | call x =>
          obtain ⟨rs, hl⟩ := hc.lists
          obtain ⟨h₁, h₂⟩ := runCall_direct hl x
          obtain ⟨ih₁, ih₂, ih₃⟩ := ih (hc.runCall x)
          rw [h₂] at ih₁ ih₂
          exact ⟨congrArg₂ List.cons h₁ ih₁, ih₂, ih₃⟩
      | change x =>
          have hx := runChange_withoutCells c x
          obtain ⟨ih₁, ih₂, ih₃⟩ := ih (hc.runChange x)
          simp only [performDirect, perform, hx]
          exact ⟨congrArg _ ih₁, ih₂, ih₃⟩

/-! ### A class with a parameter -/

/-- A class for instances that hold one thing of any type. -/
def crate : ClassDecl where
  id := ⟨"demo::Crate"⟩
  params := ⟨["T"]⟩
  fields := [⟨"item", .param "T", .empty⟩]
  constructible := true

/-- A codec with this class only. -/
def crates : Codec := (new.registerClass crate .standard).2

theorem standard_crates : crates.Standard :=
  .registerClass .new (by unfold ClassDecl.Unbound; decide) (.inr (.inl rfl))

/-- Two arguments for one parameter are refused, and they are not left for the next crate, whose
item is written with a type tag. -/
theorem perform_crates :
    let h : Heap := ⟨#[⟨crate, [.int 5]⟩]⟩
    let refused := crates.writeUntagged h .empty (.object 0) [.ofType .int, .ofType .str]
    let uses : List Use :=
      [.call (.writeUntagged h .empty (.object 0) [.ofType .int, .ofType .str]),
        .call (.write h .empty (.object 0))]
    refused.result = .error (.error (.config (.genericArity crate.id 1 2))) ∧
      (refused.codec.writeValue h .empty (.object 0)).output.bytes = #[7, 1, 2, 10] ∧
      (crates.withoutCells.performDirect uses).1 = (crates.perform uses).1 :=
  ⟨by decide +kernel, by decide +kernel, (perform_eq_direct standard_crates _).1⟩

end Codec

end GraphCodec
