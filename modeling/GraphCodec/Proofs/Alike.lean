import GraphCodec.Codec.Copy
import GraphCodec.Proofs.Steps

/-!
# Codecs — what passes depend on

A pass starts from the cells of the codec, but what it does from there on depends on the rest of
the codec only (`writeFramed_withCells`, `readFramed_withCells`, `copy_withCells`).  Two codecs that
differ at most in their cells are *alike*: so are a codec before a pass and the same codec after it.
-/

namespace GraphCodec.Codec

/-- The codec with other cells. -/
def withCells (c : Codec) (cells : ArgumentCells) : Codec := { c with cells := cells }

/-- The codecs differ at most in their cells. -/
def Alike (c k : Codec) : Prop := ∃ cells, k = c.withCells cells

theorem Alike.refl (c : Codec) : c.Alike c := ⟨c.cells, rfl⟩

/-- A pass of writing changes no more than the cells. -/
theorem alike_runWrite (c : Codec) (out : Output) (body : WriteM Unit) :
    c.Alike (c.runWrite out body).codec := ⟨_, rfl⟩

variable (c : Codec) (cells : ArgumentCells) (h : Heap)

theorem writeFields_withCells (nested : Frame → Value → WriteM Unit) (r : RecordSerializer)
    (own : Option Resolution) (o : ObjectId) (t : FieldTable) : ∀ index,
      (c.withCells cells).writeFields h nested r own o index t =
        c.writeFields h nested r own o index t := by
  induction t with
  | nil =>
      intro index
      rfl
  | cons e t ih =>
      intro index
      simp only [writeFields, ih]
      rfl

-- serializers are nested in their own tables, so that the recursion is on the wrappers only
theorem writeWith_withCells (nested : Frame → Value → WriteM Unit) (v : Value) :
    ∀ s : Serializer, (c.withCells cells).writeWith h nested s v = c.writeWith h nested s v
  | .stock s => by cases s <;> rfl
  | .record r => by simp only [writeWith, writeRecord, writeFields_withCells]
  | .catching inner => by simp only [writeWith, writeWith_withCells nested v inner]
  | .orNew inner => by simp only [writeWith, writeWith_withCells nested v inner]

theorem writeFramed_withCells (n : Nat) :
    (c.withCells cells).writeFramed h n = c.writeFramed h n := by
  induction n with
  | zero => rfl
  | succ n ih =>
      funext f v
      simp only [writeFramed, ih, writeWith_withCells]
      rfl

theorem readFields_withCells (nested : Frame → ReadM Value) (r : RecordSerializer)
    (own : Option Resolution) (o : ObjectId) (t : FieldTable) : ∀ index,
      (c.withCells cells).readFields nested r own o index t =
        c.readFields nested r own o index t := by
  induction t with
  | nil =>
      intro index
      rfl
  | cons e t ih =>
      intro index
      simp only [readFields, ih]
      rfl

theorem readWith_withCells (nested : Frame → ReadM Value) (t : ValueType) :
    ∀ s : Serializer, (c.withCells cells).readWith nested t s = c.readWith nested t s
  | .stock s => by cases s <;> rfl
  | .record r => by
    simp only [readWith, readRecord, readFields_withCells]
    rfl
  | .catching inner => by simp only [readWith, readWith_withCells nested t inner]
  | .orNew inner => by
    simp only [readWith, readWith_withCells nested t inner]
    cases t <;> rfl

theorem readFramed_withCells (n : Nat) : (c.withCells cells).readFramed n = c.readFramed n := by
  induction n with
  | zero => rfl
  | succ n ih =>
      funext f
      simp only [readFramed, ih, readWith_withCells]
      rfl

theorem copyFields_withCells (nested : Serializer → Value → CopyM Value) (owner : ClassId)
    (source copy : ObjectId) (t : FieldTable) :
    (c.withCells cells).copyFields nested owner source copy t =
      c.copyFields nested owner source copy t := by
  induction t with
  | nil => rfl
  | cons e t ih =>
      simp only [copyFields, ih]
      rfl

theorem copyWith_withCells (nested : Serializer → Value → CopyM Value) (v : Value) :
    ∀ s : Serializer, (c.withCells cells).copyWith nested s v = c.copyWith nested s v
  | .stock s => by cases s <;> cases v <;> rfl
  | .record r => by
    simp only [copyWith, copyRecord, copyFields_withCells]
    rfl
  | .catching inner => by simp only [copyWith, copyWith_withCells nested v inner]
  | .orNew inner => by
    simp only [copyWith, copyWith_withCells nested v inner]
    cases v <;> rfl

theorem copyObject_withCells (n : Nat) : (c.withCells cells).copyObject n = c.copyObject n := by
  induction n with
  | zero => rfl
  | succ n ih =>
      funext s v
      simp only [copyObject, ih, copyWith_withCells]

/-- Copying does without cells. -/
theorem copy_withCells (v : Value) : (c.withCells cells).copy h v = c.copy h v := by
  simp only [copy, copyObject_withCells]
  rfl

end GraphCodec.Codec
