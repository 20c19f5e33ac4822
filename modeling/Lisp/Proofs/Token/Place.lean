import Mathlib.Data.List.Induction
import Lisp.Proofs.Token.Displacement

/-!
# Places by bytes

A scanner counts characters one by one. What it has counted is what anyone finds who looks at the
bytes of the source text.

- `sourceBytes`: the bytes of a source text.
- `Position.IsIn`: a place in a source text lies between two characters, and its line and column
  are counted off the bytes before it.
- `Position.isIn_advanceOver`: the place after a part of a text is such a place.
- `Span.IsIn`: a stretch of a source text. `toByteArray_middle` says which bytes it has.
-/

namespace Lisp

/-- The bytes of a source text. -/
def sourceBytes (source : String) : List UInt8 := source.toByteArray.data.toList

/-- The byte that ends a line. -/
def lineFeed : UInt8 := 10

/-- A place in a source text. -/
structure Position.IsIn (source : String) (p : Position) : Prop where
  /-- The place is not inside of a character, and not behind the end. -/
  boundary : (String.Pos.Raw.mk p.offset).IsValid source
  line : p.line = 1 + ((sourceBytes source).take p.offset).count lineFeed
  /-- The bytes since the last line feed. -/
  column : p.column =
    (((sourceBytes source).take p.offset).reverse.takeWhile (· != lineFeed)).length

/-- A stretch of a source text. -/
structure Span.IsIn (source : String) (s : Span) : Prop where
  start : s.start.IsIn source
  stop : s.stop.IsIn source
  le : s.start.offset ≤ s.stop.offset

/-! ## The bytes of characters -/

/-- The bytes of some characters. -/
def bytesOf (cs : List Char) : List UInt8 := cs.flatMap String.utf8EncodeChar

theorem bytesOf_append (cs ds : List Char) : bytesOf (cs ++ ds) = bytesOf cs ++ bytesOf ds :=
  List.flatMap_append

theorem bytesOf_singleton (c : Char) : bytesOf [c] = String.utf8EncodeChar c := by
  simp [bytesOf]

theorem toByteArray_ofList (cs : List Char) :
    (String.ofList cs).toByteArray = (bytesOf cs).toByteArray :=
  String.toByteArray_ofList

theorem sourceBytes_eq (source : String) : sourceBytes source = bytesOf source.toList := by
  have hbytes := toByteArray_ofList source.toList
  rw [String.ofList_toList] at hbytes
  rw [sourceBytes, hbytes, List.toList_data_toByteArray]

theorem length_bytesOf (cs : List Char) :
    (bytesOf cs).length = (String.ofList cs).utf8ByteSize := by
  rw [← String.size_toByteArray, toByteArray_ofList, List.size_toByteArray]

/-- Only the line feed itself has a byte that ends a line. -/
theorem lineFeed_mem_iff (c : Char) : lineFeed ∈ String.utf8EncodeChar c ↔ c = '\n' := by
  constructor
  · intro hmem
    have hval : c.val.toNat = 10 := by
      unfold String.utf8EncodeChar lineFeed at hmem
      dsimp only at hmem
      -- A character of several bytes has no byte below 0x80.
      split at hmem
      · have hbyte := congrArg UInt8.toNat (List.mem_singleton.1 hmem)
        rw [UInt8.toNat_ofNat'] at hbyte
        change 10 = _ at hbyte
        omega
      · exfalso
        split at hmem
        · simp only [List.mem_cons, List.not_mem_nil, or_false, ← UInt8.toNat_inj,
            UInt8.toNat_ofNat', UInt8.reduceToNat] at hmem
          omega
        split at hmem
        · simp only [List.mem_cons, List.not_mem_nil, or_false, ← UInt8.toNat_inj,
            UInt8.toNat_ofNat', UInt8.reduceToNat] at hmem
          omega
        · simp only [List.mem_cons, List.not_mem_nil, or_false, ← UInt8.toNat_inj,
            UInt8.toNat_ofNat', UInt8.reduceToNat] at hmem
          omega
    exact Char.ext (UInt32.toNat_inj.1 hval)
  · rintro rfl
    decide

/-! ## Counting characters is counting bytes -/

namespace Position

/-- The place after some bytes. -/
def ofBytes (bs : List UInt8) : Position :=
  ⟨bs.length, 1 + bs.count lineFeed, (bs.reverse.takeWhile (· != lineFeed)).length⟩

/-- The place after one more character. -/
theorem ofBytes_append (bs : List UInt8) (c : Char) :
    ofBytes (bs ++ String.utf8EncodeChar c) = (ofBytes bs).advance c := by
  by_cases hc : c = '\n'
  · subst hc
    have hbyte : String.utf8EncodeChar '\n' = [lineFeed] := by decide
    rw [hbyte]
    simp [ofBytes, advance, Nat.add_assoc]
  · -- None of the bytes ends a line.
    have hnot : lineFeed ∉ String.utf8EncodeChar c := fun h => hc ((lineFeed_mem_iff c).1 h)
    have hall : ∀ b ∈ (String.utf8EncodeChar c).reverse, (b != lineFeed) = true := by
      intro b hb
      refine bne_iff_ne.2 fun heq => hnot ?_
      rw [← heq]
      exact List.mem_reverse.1 hb
    rw [advance, if_neg hc]
    simp only [ofBytes, List.length_append, String.length_utf8EncodeChar, List.count_append,
      List.count_eq_zero_of_not_mem hnot, List.reverse_append, List.takeWhile_append_of_pos hall,
      List.length_reverse, Nat.add_zero, Position.mk.injEq, true_and]
    omega

theorem advanceOver_start (cs : List Char) : start.advanceOver cs = ofBytes (bytesOf cs) := by
  induction cs using List.reverseRecOn with
  | nil => rfl
  | append_singleton cs c ih =>
    rw [advanceOver_append, ih, bytesOf_append, bytesOf_singleton, ofBytes_append]
    rfl

theorem offset_advanceOver_start (cs : List Char) :
    (start.advanceOver cs).offset = (bytesOf cs).length := by
  rw [advanceOver_start]
  rfl

/-- The place after a part of a source text is a place in it. -/
theorem isIn_advanceOver {source : String} {cs ds : List Char} (h : source.toList = cs ++ ds) :
    (start.advanceOver cs).IsIn source := by
  have hbytes : (sourceBytes source).take (start.advanceOver cs).offset = bytesOf cs := by
    rw [offset_advanceOver_start, sourceBytes_eq, h, bytesOf_append, List.take_left]
  constructor
  case boundary =>
    refine String.Pos.Raw.isValid_iff_exists_append.2 ⟨String.ofList cs, String.ofList ds, ?_, ?_⟩
    · rw [← String.ofList_append, ← h, String.ofList_toList]
    · rw [offset_advanceOver_start, length_bytesOf]
      rfl
  case line =>
    rw [hbytes, advanceOver_start]
    rfl
  case column =>
    rw [hbytes, advanceOver_start]
    rfl

end Position

/-- A part of a source text has the bytes between the places before and behind it. -/
theorem toByteArray_middle {source : String} {before middle behind : List Char}
    (h : source.toList = before ++ (middle ++ behind)) :
    (String.ofList middle).toByteArray = source.toByteArray.extract
      (Position.start.advanceOver before).offset
      (Position.start.advanceOver (before ++ middle)).offset := by
  have hsource : source.toByteArray = (bytesOf before).toByteArray ++
      ((bytesOf middle).toByteArray ++ (bytesOf behind).toByteArray) := by
    have hends : source =
        String.ofList before ++ (String.ofList middle ++ String.ofList behind) := by
      rw [← String.ofList_toList (s := source), h, String.ofList_append, String.ofList_append]
    rw [hends, String.toByteArray_append, String.toByteArray_append, toByteArray_ofList,
      toByteArray_ofList, toByteArray_ofList]
  rw [Position.offset_advanceOver_start, Position.offset_advanceOver_start, bytesOf_append,
    List.length_append, toByteArray_ofList, ← List.size_toByteArray (l := bytesOf before),
    ← List.size_toByteArray (l := bytesOf middle), hsource]
  symm
  calc _ = ((bytesOf middle).toByteArray ++ (bytesOf behind).toByteArray).extract 0
            (bytesOf middle).toByteArray.size := ByteArray.extract_append_size_add (i := 0)
    _ = (bytesOf middle).toByteArray := ByteArray.extract_append_eq_left rfl

end Lisp
