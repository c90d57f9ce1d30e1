import DownSample.Library.LittleEndian
import DownSample.Library.Loop

/-! # The headers of a bitmap file

A bitmap file starts with a header of 14 bytes and an information header of 40; a file
of at most 8 bits a pixel goes on with a table of colours. All of them are read into
objects whose members hold anything before, and a file that ends early leaves the rest
of a member as it was. A header that is written is read back with its signature, its
dimensions and its resolution as they were, and with the depth and the sizes that every
written file has (`DownSample.CcsBmpHeader.read_write`,
`DownSample.CcsBmpInfoHeader.read_write`).
-/

namespace DownSample

open Imperative

/-- The assertions of `ccs_bmpfile.cpp`. -/
inductive BmpAssertion where
  | signatureB
  | signatureM
  | uncompressed
  | colortableDepth
  | arrayDepth
  | pixelDepth
deriving DecidableEq, Repr

/-- What stops the reading of a bitmap: an assertion, or an access outside an array. -/
inductive BmpFault where
  | assertion (failed : BmpAssertion)
  | arrayOutOfRange (index : ℕ)
  | colortableOutOfRange (index : ℕ)
deriving DecidableEq, Repr

/-- What is left to read of a file. -/
abbrev File := List (BitVec 8)

section Stdio

variable {width : ℕ}

/-- `fread` of `count` bytes into an integer that holds `old`. When the file ends early,
the bytes that are there are read. -/
def fread (count : ℕ) (old : BitVec width) : EStateM BmpFault File (BitVec width) := fun fp =>
  .ok (BitVec.ofNat width (LittleEndian.combine
    (LittleEndian.overwrite (LittleEndian.split count old.toNat) (fp.take count))))
    (fp.drop count)

/-- `fwrite` of the `count` bytes of an integer: what is added to the file. -/
def fwrite (count : ℕ) (value : BitVec width) : List (BitVec 8) :=
  LittleEndian.split count value.toNat

@[simp] theorem length_fwrite (count : ℕ) (value : BitVec width) :
    (fwrite count value).length = count := LittleEndian.length_split _ _

/-- The integer in the `count` bytes of a file from an offset on. -/
def fieldAt (width count offset : ℕ) (fp : File) : BitVec width :=
  BitVec.ofNat width (LittleEndian.combine ((fp.drop offset).take count))

/-- Where the file has all its bytes, an integer is read from them alone. -/
theorem fread_drop (count : ℕ) (old : BitVec width) (fp : File) (offset : ℕ)
    (enough : offset + count ≤ fp.length) :
    fread count old (fp.drop offset) =
      .ok (fieldAt width count offset fp) (fp.drop (offset + count)) := by
  have taken : ((fp.drop offset).take count).length = count := by
    rw [List.length_take, List.length_drop]
    omega
  rw [fread, fieldAt, LittleEndian.overwrite_of_full (by rw [LittleEndian.length_split, taken]),
    List.drop_drop]

/-- An integer is read back from the bytes it was written as. -/
theorem fread_fwrite (count : ℕ) (old value : BitVec width) (fits : 2 ^ width ≤ 256 ^ count)
    (fp : File) : fread count old (fwrite count value ++ fp) = .ok value fp := by
  have whole := length_fwrite count value
  have small : value.toNat < 256 ^ count := lt_of_lt_of_le value.isLt fits
  rw [fread, List.take_left' whole, List.drop_left' whole,
    LittleEndian.overwrite_of_full (by rw [LittleEndian.length_split, whole]), fwrite,
    LittleEndian.combine_split_of_lt small, BitVec.ofNat_toNat, BitVec.setWidth_eq]

end Stdio

/-! ## The file header -/

/-- The members of class `ccs_bmpheader`. -/
structure CcsBmpHeader where
  signature : BitVec 8 × BitVec 8
  filesize : BitVec 32
  reserved : BitVec 32
  dataoffset : BitVec 32
deriving DecidableEq, Repr

namespace CcsBmpHeader

/-- `ccs_bmpheader::read`. -/
def read (header : CcsBmpHeader) : EStateM BmpFault File CcsBmpHeader := do
  let first ← fread 1 header.signature.1
  let second ← fread 1 header.signature.2
  let filesize ← fread 4 header.filesize
  let reserved ← fread 4 header.reserved
  let dataoffset ← fread 4 header.dataoffset
  if first ≠ 66 then -- 'B'
    throw (.assertion .signatureB)
  if second ≠ 77 then -- 'M'
    throw (.assertion .signatureM)
  return ⟨(first, second), filesize, reserved, dataoffset⟩

/-- `ccs_bmpheader::write`. -/
def write (header : CcsBmpHeader) (realfilesize : BitVec 32) : List (BitVec 8) :=
  let realdataoffset : BitVec 32 := 54
  fwrite 1 header.signature.1 ++ fwrite 1 header.signature.2 ++ fwrite 4 realfilesize ++
    fwrite 4 header.reserved ++ fwrite 4 realdataoffset

/-- The header in the first bytes of a file. -/
def inFile (fp : File) : CcsBmpHeader where
  signature := (fieldAt 8 1 0 fp, fieldAt 8 1 1 fp)
  filesize := fieldAt 32 4 2 fp
  reserved := fieldAt 32 4 6 fp
  dataoffset := fieldAt 32 4 10 fp

/-- A file that starts with a whole header is read from its bytes alone, and asserts
unless they start with the signature. -/
theorem read_inFile (header : CcsBmpHeader) (fp : File) (enough : 14 ≤ fp.length) :
    read header fp =
      if fieldAt 8 1 0 fp ≠ (66 : BitVec 8) then
        .error (.assertion .signatureB) (fp.drop 14)
      else if fieldAt 8 1 1 fp ≠ (77 : BitVec 8) then
        .error (.assertion .signatureM) (fp.drop 14)
      else .ok (inFile fp) (fp.drop 14) := by
  have first := fread_drop 1 header.signature.1 fp 0 (by omega)
  rw [List.drop_zero] at first
  unfold read
  rw [bind_of_ok first, bind_of_ok (fread_drop 1 _ fp 1 (by omega)),
    bind_of_ok (fread_drop 4 _ fp 2 (by omega)), bind_of_ok (fread_drop 4 _ fp 6 (by omega)),
    bind_of_ok (fread_drop 4 _ fp 10 (by omega))]
  by_cases signatureB : fieldAt 8 1 0 fp = (66 : BitVec 8)
  · by_cases signatureM : fieldAt 8 1 1 fp = (77 : BitVec 8)
    · simp only [inFile, signatureB, signatureM, ne_eq, not_true_eq_false, ↓reduceIte]
      rfl
    · simp only [signatureB, signatureM, ne_eq, not_true_eq_false, not_false_eq_true, ↓reduceIte]
      rfl
  · simp only [signatureB, ne_eq, not_false_eq_true, ↓reduceIte]
    rfl

/-- A written header is read back, with the file's size and the offset of the pixels that
were written. -/
theorem read_write (header fresh : CcsBmpHeader) (realfilesize : BitVec 32)
    (signed : header.signature = (66, 77)) (fp : File) :
    read fresh (write header realfilesize ++ fp) =
      .ok { header with filesize := realfilesize, dataoffset := 54 } fp := by
  unfold read write
  simp only [List.append_assoc]
  rw [bind_of_ok (fread_fwrite 1 _ _ (by decide) _), bind_of_ok (fread_fwrite 1 _ _ (by decide) _),
    bind_of_ok (fread_fwrite 4 _ _ (by decide) _), bind_of_ok (fread_fwrite 4 _ _ (by decide) _),
    bind_of_ok (fread_fwrite 4 _ _ (by decide) _)]
  simp only [signed]
  rfl

@[simp] theorem length_write (header : CcsBmpHeader) (realfilesize : BitVec 32) :
    (write header realfilesize).length = 14 := by
  simp only [write, List.length_append, length_fwrite]

end CcsBmpHeader

/-! ## The information header -/

/-- The members of class `ccs_bmpinfoheader`. -/
structure CcsBmpInfoHeader where
  size : BitVec 32
  width : BitVec 32
  height : BitVec 32
  planes : BitVec 16
  bitcount : BitVec 16
  compression : BitVec 32
  imagesize : BitVec 32
  xpixelsperm : BitVec 32
  ypixelsperm : BitVec 32
  colorsused : BitVec 32
  colorsimportant : BitVec 32
deriving DecidableEq, Repr

namespace CcsBmpInfoHeader

/-- `ccs_bmpinfoheader::read`. -/
def read (header : CcsBmpInfoHeader) : EStateM BmpFault File CcsBmpInfoHeader := do
  let size ← fread 4 header.size
  let width ← fread 4 header.width
  let height ← fread 4 header.height
  let planes ← fread 2 header.planes
  let bitcount ← fread 2 header.bitcount
  let compression ← fread 4 header.compression
  let imagesize ← fread 4 header.imagesize
  let xpixelsperm ← fread 4 header.xpixelsperm
  let ypixelsperm ← fread 4 header.ypixelsperm
  let colorsused ← fread 4 header.colorsused
  let colorsimportant ← fread 4 header.colorsimportant
  return ⟨size, width, height, planes, bitcount, compression, imagesize, xpixelsperm,
    ypixelsperm, colorsused, colorsimportant⟩

/-- The header that `ccs_bmpinfoheader::write` writes: of a picture of 24 bits a pixel,
without a table of colours. The compression is a zero of two bytes, but four bytes are
written from it, so that the two bytes of memory beyond it come along. -/
def actual (header : CcsBmpInfoHeader) (beyond : BitVec 16) : CcsBmpInfoHeader :=
  { header with
    bitcount := 24
    compression := beyond ++ (0 : BitVec 16)
    imagesize := header.width * header.height * 3
    colorsused := 0
    colorsimportant := 0 }

/-- `ccs_bmpinfoheader::write`. -/
def write (header : CcsBmpInfoHeader) (beyond : BitVec 16) : List (BitVec 8) :=
  let actual := header.actual beyond
  fwrite 4 actual.size ++ fwrite 4 actual.width ++ fwrite 4 actual.height ++
    fwrite 2 actual.planes ++ fwrite 2 actual.bitcount ++ fwrite 4 actual.compression ++
    fwrite 4 actual.imagesize ++ fwrite 4 actual.xpixelsperm ++ fwrite 4 actual.ypixelsperm ++
    fwrite 4 actual.colorsused ++ fwrite 4 actual.colorsimportant

/-- The information header in a file from an offset on. -/
def inFile (offset : ℕ) (fp : File) : CcsBmpInfoHeader where
  size := fieldAt 32 4 offset fp
  width := fieldAt 32 4 (offset + 4) fp
  height := fieldAt 32 4 (offset + 8) fp
  planes := fieldAt 16 2 (offset + 12) fp
  bitcount := fieldAt 16 2 (offset + 14) fp
  compression := fieldAt 32 4 (offset + 16) fp
  imagesize := fieldAt 32 4 (offset + 20) fp
  xpixelsperm := fieldAt 32 4 (offset + 24) fp
  ypixelsperm := fieldAt 32 4 (offset + 28) fp
  colorsused := fieldAt 32 4 (offset + 32) fp
  colorsimportant := fieldAt 32 4 (offset + 36) fp

/-- A file with a whole information header is read from its bytes alone. -/
theorem read_inFile (header : CcsBmpInfoHeader) (fp : File) (offset : ℕ)
    (enough : offset + 40 ≤ fp.length) :
    read header (fp.drop offset) = .ok (inFile offset fp) (fp.drop (offset + 40)) := by
  unfold read
  rw [bind_of_ok (fread_drop 4 _ fp offset (by omega)),
    bind_of_ok (fread_drop 4 _ fp (offset + 4) (by omega)),
    bind_of_ok (fread_drop 4 _ fp (offset + 4 + 4) (by omega)),
    bind_of_ok (fread_drop 2 _ fp (offset + 4 + 4 + 4) (by omega)),
    bind_of_ok (fread_drop 2 _ fp (offset + 4 + 4 + 4 + 2) (by omega)),
    bind_of_ok (fread_drop 4 _ fp (offset + 4 + 4 + 4 + 2 + 2) (by omega)),
    bind_of_ok (fread_drop 4 _ fp (offset + 4 + 4 + 4 + 2 + 2 + 4) (by omega)),
    bind_of_ok (fread_drop 4 _ fp (offset + 4 + 4 + 4 + 2 + 2 + 4 + 4) (by omega)),
    bind_of_ok (fread_drop 4 _ fp (offset + 4 + 4 + 4 + 2 + 2 + 4 + 4 + 4) (by omega)),
    bind_of_ok (fread_drop 4 _ fp (offset + 4 + 4 + 4 + 2 + 2 + 4 + 4 + 4 + 4) (by omega)),
    bind_of_ok (fread_drop 4 _ fp (offset + 4 + 4 + 4 + 2 + 2 + 4 + 4 + 4 + 4 + 4) (by omega))]
  rfl

/-- A written header is read back as the header that was meant to be written. -/
theorem read_write (header fresh : CcsBmpInfoHeader) (beyond : BitVec 16) (fp : File) :
    read fresh (write header beyond ++ fp) = .ok (header.actual beyond) fp := by
  unfold read write
  simp only [List.append_assoc]
  rw [bind_of_ok (fread_fwrite 4 _ _ (by decide) _), bind_of_ok (fread_fwrite 4 _ _ (by decide) _),
    bind_of_ok (fread_fwrite 4 _ _ (by decide) _), bind_of_ok (fread_fwrite 2 _ _ (by decide) _),
    bind_of_ok (fread_fwrite 2 _ _ (by decide) _), bind_of_ok (fread_fwrite 4 _ _ (by decide) _),
    bind_of_ok (fread_fwrite 4 _ _ (by decide) _), bind_of_ok (fread_fwrite 4 _ _ (by decide) _),
    bind_of_ok (fread_fwrite 4 _ _ (by decide) _), bind_of_ok (fread_fwrite 4 _ _ (by decide) _),
    bind_of_ok (fread_fwrite 4 _ _ (by decide) _)]
  rfl

@[simp] theorem length_write (header : CcsBmpInfoHeader) (beyond : BitVec 16) :
    (write header beyond).length = 40 := by
  simp only [write, List.length_append, length_fwrite]

end CcsBmpInfoHeader

/-! ## The table of colours -/

/-- The members of class `ccs_bmpcolortable`. -/
structure CcsBmpColorTable where
  numcolors : BitVec 32
  array : Vector (BitVec 8) 1024
deriving DecidableEq, Repr

namespace CcsBmpColorTable

/-- `fread` of `count` bytes into the array of the table. -/
def fill (table : CcsBmpColorTable) (numcolors : BitVec 32) (count : ℕ) :
    EStateM BmpFault File CcsBmpColorTable := fun fp =>
  .ok { numcolors
        array := Vector.ofFn fun k => ((fp.take count)[k.val]?).getD table.array[k] }
    (fp.drop count)

/-- `ccs_bmpcolortable::read`. -/
def read (table : CcsBmpColorTable) (bitsperpixel : BitVec 16) :
    EStateM BmpFault File CcsBmpColorTable :=
  if bitsperpixel = 1 then table.fill 2 (4 * 2)
  else if bitsperpixel = 4 then table.fill 16 (4 * 16)
  else if bitsperpixel = 8 then table.fill 256 (4 * 256)
  else throw (.assertion .colortableDepth)

/-- `*(bgr(index) + component)`. -/
def bgr (table : CcsBmpColorTable) (index : BitVec 32) (component : ℕ) :
    Except BmpFault (BitVec 8) :=
  let place := (index * 4).toNat + component
  if inside : place < 1024 then .ok table.array[place] else .error (.colortableOutOfRange place)

/-- The table after bytes of a file were read into it: those that are in the file, and
otherwise what the table held. -/
theorem getElem_fill (table : CcsBmpColorTable) (numcolors : BitVec 32) (count : ℕ) (fp : File)
    (offset : ℕ) :
    ∃ filled, table.fill numcolors count (fp.drop offset) = .ok filled (fp.drop (offset + count)) ∧
      ∀ k, (inside : k < 1024) → filled.array[k] =
        if k < count ∧ offset + k < fp.length then fp.getD (offset + k) 0
        else table.array[k] := by
  refine ⟨_, by rw [fill, List.drop_drop], fun k inside => ?_⟩
  simp only [Vector.getElem_ofFn, Fin.getElem_fin]
  by_cases there : k < count ∧ offset + k < fp.length
  · rw [if_pos there, List.getElem?_take_of_lt there.1, List.getElem?_drop,
      List.getElem?_eq_getElem there.2, Option.getD_some, List.getD_eq_getElem?_getD,
      List.getElem?_eq_getElem there.2, Option.getD_some]
  · have none : ((fp.drop offset).take count)[k]? = none := by
      rw [List.getElem?_eq_none_iff, List.length_take, List.length_drop]
      omega
    rw [if_neg there, none, Option.getD_none]

end CcsBmpColorTable

end DownSample
