import DownSample.Bitmap.Load

/-! # Writing a picture and loading it back

A picture is written in 24 bits a pixel, as the bytes of its array. Two things can keep the
picture from being loaded back. The compression of the written header is taken from a
variable of two bytes and the two bytes of memory beyond it; unless those are zero, the file
cannot be loaded at all (`DownSample.CcsBmpObject.written_loads_iff`). And the lines of the
array are not padded, while the lines of a file are when it is read, so that only the
pictures of a size that needs no padding all come back (`DownSample.CcsBmpObject.reload_iff`).
-/

namespace DownSample

open Imperative

namespace CcsBmpObject

/-- `ccs_bmpfile::writearray`: what is added to the file. -/
def writearray (bmp : CcsBmpObject) : Except BmpFault (List (BitVec 8)) :=
  let count := (bmp.infoheader.width * bmp.infoheader.height * 3).toNat
  if count ≤ bmp.array.length then .ok (bmp.array.take count)
  else .error (.arrayOutOfRange bmp.array.length)

/-- `ccs_bmpfile::write`, to a file that could be opened. -/
def write (bmp : CcsBmpObject) (beyond : BitVec 16) : Except BmpFault File := do
  let header :=
    bmp.header.write (bmp.infoheader.width * bmp.infoheader.height * 3 + 54)
  let infoheader := bmp.infoheader.write beyond
  let array ← bmp.writearray
  return header ++ (infoheader ++ array)

/-- The objects that are loaded: signed, with three bytes for every pixel. -/
structure Intact (bmp : CcsBmpObject) : Prop where
  signature : bmp.header.signature = (66, 77)
  size : 3 * (bmp.infoheader.height.toNat * bmp.infoheader.width.toNat) < 2 ^ 32
  length : bmp.array.length = 3 * (bmp.infoheader.height.toNat * bmp.infoheader.width.toNat)

/-- What is loaded is intact. -/
theorem intact_of_load {fresh bmp : CcsBmpObject} {heap : ℕ → BitVec 8} {file rest : File}
    (whole : 54 ≤ file.length) (loads : load fresh heap file = .ok bmp rest) : Intact bmp := by
  obtain ⟨accepted, size, loaded⟩ := loaded_of_load whole loads
  have rows : bmp.infoheader.height.toNat = rowsOf file := by rw [loaded.infoheader, rowsOf]
  have columns : bmp.infoheader.width.toNat = columnsOf file := by rw [loaded.infoheader, columnsOf]
  exact {
    signature := by rw [loaded.header, accepted.signature]
    size := by rw [rows, columns]; exact size
    length := by rw [rows, columns]; exact loaded.length }

/-- An object of a picture of a given size. -/
def ofArray (width height : BitVec 32) (array : List (BitVec 8)) : CcsBmpObject where
  header := ⟨(66, 77), 0, 0, 54⟩
  infoheader := ⟨40, width, height, 1, 24, 0, 0, 0, 0, 0, 0⟩
  colortable := ⟨0, Vector.replicate 1024 0⟩
  array := array
  bytesleft := 0
  fourbytebuffer := 0
  bitsleft := 0
  pixelbuffer := 0

/-! ## The written file -/

/-- The file that is written of an intact object. -/
def written (bmp : CcsBmpObject) (beyond : BitVec 16) : File :=
  bmp.header.write (bmp.infoheader.width * bmp.infoheader.height * 3 + 54) ++
    (bmp.infoheader.write beyond ++ bmp.array)

section Written

variable {bmp : CcsBmpObject}

/-- An intact object can be written. -/
theorem write_of_intact (intact : Intact bmp) (beyond : BitVec 16) :
    write bmp beyond = .ok (written bmp beyond) := by
  have three : (3 : BitVec 32).toNat = 3 := rfl
  have count : (bmp.infoheader.width * bmp.infoheader.height * 3).toNat = bmp.array.length := by
    rw [BitVec.toNat_mul, BitVec.toNat_mul, three, Nat.mod_mul_mod, intact.length,
      Nat.mul_comm bmp.infoheader.width.toNat, Nat.mul_comm _ 3, Nat.mod_eq_of_lt intact.size]
  have array : bmp.writearray = .ok bmp.array := by
    rw [writearray, count, if_pos le_rfl, List.take_length]
  rw [write, array]
  rfl

theorem length_written (bmp : CcsBmpObject) (beyond : BitVec 16) :
    (written bmp beyond).length = 54 + bmp.array.length := by
  simp only [written, List.length_append, CcsBmpHeader.length_write,
    CcsBmpInfoHeader.length_write]
  omega

private theorem drop_header (bmp : CcsBmpObject) (beyond : BitVec 16) :
    (written bmp beyond).drop 14 = bmp.infoheader.write beyond ++ bmp.array :=
  List.drop_left' (CcsBmpHeader.length_write _ _)

/-- Behind the headers of a written file are the bytes of the array. -/
theorem drop_headers (bmp : CcsBmpObject) (beyond : BitVec 16) :
    (written bmp beyond).drop 54 = bmp.array := by
  have split : 54 = 14 + 40 := rfl
  rw [split, ← List.drop_drop, drop_header]
  exact List.drop_left' (CcsBmpInfoHeader.length_write _ _)

/-- The header of a written file. -/
theorem header_written (signature : bmp.header.signature = (66, 77)) (beyond : BitVec 16) :
    CcsBmpHeader.inFile (written bmp beyond) =
      { bmp.header with
        filesize := bmp.infoheader.width * bmp.infoheader.height * 3 + 54
        dataoffset := 54 } := by
  have reads := bmp.header.read_write bmp.header
    (bmp.infoheader.width * bmp.infoheader.height * 3 + 54) signature
    (bmp.infoheader.write beyond ++ bmp.array)
  have whole : 14 ≤ (written bmp beyond).length := by
    rw [length_written]
    omega
  change bmp.header.read (written bmp beyond) = _ at reads
  rw [bmp.header.read_inFile _ whole] at reads
  split at reads
  · exact nomatch reads
  · split at reads
    · exact nomatch reads
    · exact (EStateM.Result.ok.inj reads).1

/-- The information header of a written file. -/
theorem infoheader_written (bmp : CcsBmpObject) (beyond : BitVec 16) :
    CcsBmpInfoHeader.inFile 14 (written bmp beyond) = bmp.infoheader.actual beyond := by
  have whole : 14 + 40 ≤ (written bmp beyond).length := by
    rw [length_written]
    omega
  have reads := bmp.infoheader.read_inFile (written bmp beyond) 14 whole
  rw [drop_header, CcsBmpInfoHeader.read_write] at reads
  exact (EStateM.Result.ok.inj reads).1.symm

theorem rowsOf_written (bmp : CcsBmpObject) (beyond : BitVec 16) :
    rowsOf (written bmp beyond) = bmp.infoheader.height.toNat := by
  rw [rowsOf, infoheader_written]
  rfl

theorem columnsOf_written (bmp : CcsBmpObject) (beyond : BitVec 16) :
    columnsOf (written bmp beyond) = bmp.infoheader.width.toNat := by
  rw [columnsOf, infoheader_written]
  rfl

theorem depthOf_written (bmp : CcsBmpObject) (beyond : BitVec 16) :
    depthOf (written bmp beyond) = 24 := by
  rw [depthOf, infoheader_written]
  rfl

theorem lineStart_written (bmp : CcsBmpObject) (beyond : BitVec 16) (i : ℕ) :
    lineStart (written bmp beyond) i = 54 + i * stride 24 bmp.infoheader.width.toNat := by
  rw [lineStart, depthOf_written, columnsOf_written, tableBytes, if_pos rfl, Nat.add_zero]

/-- A written file is accepted if the bytes beyond the compression were zero. -/
theorem accepted_written (intact : Intact bmp) : Accepted (written bmp 0) where
  whole := by
    rw [length_written]
    omega
  signature := by rw [header_written intact.signature, intact.signature]
  uncompressed := by
    rw [infoheader_written]
    rfl
  readable := by
    rw [depthOf_written]
    decide

/-- A written file is loaded if and only if the bytes beyond the compression were zero. -/
theorem load_written_iff (intact : Intact bmp) (beyond : BitVec 16) (fresh : CcsBmpObject)
    (heap : ℕ → BitVec 8) :
    (∃ bmp' rest, load fresh heap (written bmp beyond) = .ok bmp' rest) ↔ beyond = 0 := by
  constructor
  · rintro ⟨bmp', rest, loads⟩
    have whole : 54 ≤ (written bmp beyond).length := by
      rw [length_written]
      omega
    have uncompressed := (loaded_of_load whole loads).1.uncompressed
    rw [infoheader_written] at uncompressed
    have shifted : (beyond ++ (0 : BitVec 16)).toNat = 0 := congrArg BitVec.toNat uncompressed
    rw [BitVec.toNat_append] at shifted
    change beyond.toNat <<< 16 ||| 0 = 0 at shifted
    rw [Nat.or_zero, Nat.shiftLeft_eq] at shifted
    exact BitVec.eq_of_toNat_eq ((Nat.mul_eq_zero.mp shifted).resolve_right (by decide))
  · rintro rfl
    have size : 3 * (rowsOf (written bmp 0) * columnsOf (written bmp 0)) < 2 ^ 32 := by
      rw [rowsOf_written, columnsOf_written]
      exact intact.size
    obtain ⟨bmp', rest, loads, _⟩ := loads_of_accepted (accepted_written intact) size fresh heap
    exact ⟨bmp', rest, loads⟩

/-- **What is written, and when it can be loaded.** The file has the 54 bytes of the two headers
and then the bytes of the array. It is loaded if and only if the two bytes of memory beyond
the compression were zero. -/
theorem written_loads_iff (intact : Intact bmp) (beyond : BitVec 16) :
    ∃ file, write bmp beyond = .ok file ∧
      file.length = 54 + 3 * (bmp.infoheader.height.toNat * bmp.infoheader.width.toNat) ∧
      file.drop 54 = bmp.array ∧
      ∀ fresh heap, (∃ bmp' rest, load fresh heap file = .ok bmp' rest) ↔ beyond = 0 :=
  ⟨written bmp beyond, write_of_intact intact beyond, by rw [length_written, intact.length],
    drop_headers bmp beyond, load_written_iff intact beyond⟩

/-- A picture of one pixel is written, and with 1 beyond the compression it is not loaded. -/
theorem written_loads_iff_onePixel : ∃ file, write (ofArray 1 1 [10, 20, 30]) 1 = .ok file ∧
    file.length = 57 ∧ file.drop 54 = [10, 20, 30] ∧
      ¬ ∃ bmp' rest, load (ofArray 1 1 [10, 20, 30]) (fun _ => 0) file = .ok bmp' rest := by
  obtain ⟨file, writes, length, pixels, loads⟩ :=
    written_loads_iff (show Intact (ofArray 1 1 [10, 20, 30]) from ⟨rfl, by decide, rfl⟩) 1
  exact ⟨file, writes, length, pixels, fun loaded => absurd ((loads _ _).mp loaded) (by decide)⟩

/-- A component of a picture that is loaded back, where the written file has it: the byte of
the array at its place in a padded line. -/
theorem reload_component (intact : Intact bmp) {fresh bmp' : CcsBmpObject} {heap : ℕ → BitVec 8}
    {rest : File} (loads : load fresh heap (written bmp 0) = .ok bmp' rest) {i j c : ℕ}
    (row : i < bmp.infoheader.height.toNat) (column : j < bmp.infoheader.width.toNat)
    (within : c < 3)
    (there : i * stride 24 bmp.infoheader.width.toNat + (3 * j + c) < bmp.array.length) :
    bmp'.array[3 * (i * bmp.infoheader.width.toNat + j) + c]? =
      bmp.array[i * stride 24 bmp.infoheader.width.toNat + (3 * j + c)]? := by
  have accepted := accepted_written intact
  obtain ⟨_, _, loaded⟩ := loaded_of_load accepted.whole loads
  have inside : lineStart (written bmp 0) i + bytesUpTo (depthOf (written bmp 0)) j c ≤
      (written bmp 0).length := by
    rw [lineStart_written, depthOf_written, length_written, bytesUpTo, if_pos rfl]
    omega
  have component := loaded.array_of_pixel accepted.readable
    (by rw [rowsOf_written]; exact row) (by rw [columnsOf_written]; exact column) within inside
  have behind (k : ℕ) : (written bmp 0)[54 + k]? = bmp.array[k]? := by
    rw [← List.getElem?_drop, drop_headers]
  rw [columnsOf_written, loadedByte, depthOf_written, if_pos rfl, lineByte, lineStart_written,
    Nat.add_assoc, List.getD_eq_getElem?_getD, behind, List.getElem?_eq_getElem there,
    Option.getD_some] at component
  rw [component, List.getElem?_eq_getElem there]

end Written

/-! ## Padding -/

theorem stride_color (width : ℕ) : stride 24 width = 4 * ((3 * width + 3) / 4) := by
  unfold stride bytesTaken
  omega

/-- Without padding, a picture is loaded back as it was written. -/
private theorem reload_of_aligned {bmp fresh bmp' : CcsBmpObject} {heap : ℕ → BitVec 8}
    {rest : File} (intact : Intact bmp)
    (aligned : 4 ∣ bmp.infoheader.width.toNat ∨ bmp.infoheader.height.toNat ≤ 1)
    (loads : load fresh heap (written bmp 0) = .ok bmp' rest) : bmp'.array = bmp.array := by
  obtain ⟨_, _, loaded⟩ := loaded_of_load (accepted_written intact).whole loads
  have length := loaded.length
  rw [rowsOf_written, columnsOf_written] at length
  refine array_ext length intact.length fun i row j column c within => ?_
  have start : i * stride 24 bmp.infoheader.width.toNat =
      3 * (i * bmp.infoheader.width.toNat) := by
    rcases aligned with ⟨blocks, width⟩ | single
    · have exactly : stride 24 bmp.infoheader.width.toNat = 3 * bmp.infoheader.width.toNat := by
        rw [stride_color]
        omega
      rw [exactly, Nat.mul_left_comm]
    · have first : i = 0 := by omega
      rw [first, Nat.zero_mul, Nat.zero_mul]
  have rows : (i + 1) * bmp.infoheader.width.toNat ≤
      bmp.infoheader.height.toNat * bmp.infoheader.width.toNat := Nat.mul_le_mul_right _ row
  rw [Nat.succ_mul] at rows
  have place : i * stride 24 bmp.infoheader.width.toNat + (3 * j + c) =
      3 * (i * bmp.infoheader.width.toNat + j) + c := by omega
  rw [reload_component intact loads row column within (by rw [place, intact.length]; omega), place]

/-- Without padding and without memory beyond the compression, a picture can be written and is
loaded back. -/
private theorem reload_of_intact {bmp : CcsBmpObject} (intact : Intact bmp)
    (aligned : 4 ∣ bmp.infoheader.width.toNat ∨ bmp.infoheader.height.toNat ≤ 1) :
    ∃ file, write bmp 0 = .ok file ∧ ∀ fresh heap, ∃ bmp' rest,
      load fresh heap file = .ok bmp' rest ∧ bmp'.array = bmp.array := by
  refine ⟨written bmp 0, write_of_intact intact 0, fun fresh heap => ?_⟩
  obtain ⟨bmp', rest, loads⟩ := (load_written_iff intact 0 fresh heap).mpr rfl
  exact ⟨bmp', rest, loads, reload_of_aligned intact aligned loads⟩

/-- With padding, the second line of some picture is loaded back from another place. -/
private theorem reload_of_padded {width height : BitVec 32}
    (size : 3 * (height.toNat * width.toNat) < 2 ^ 32) (padded : ¬ 4 ∣ width.toNat)
    (lines : 2 ≤ height.toNat) :
    ∃ array, Intact (ofArray width height array) ∧
      ∀ fresh heap bmp' rest, load fresh heap (written (ofArray width height array) 0) =
        .ok bmp' rest → bmp'.array ≠ array := by
  let byteAt (m : ℕ) : BitVec 8 := if m = 3 * width.toNat then 1 else 0
  let array := (List.range (3 * (height.toNat * width.toNat))).map byteAt
  have length : array.length = 3 * (height.toNat * width.toNat) := by
    rw [List.length_map, List.length_range]
  have intact : Intact (ofArray width height array) := ⟨rfl, size, length⟩
  have rows : 2 * width.toNat ≤ height.toNat * width.toNat := Nat.mul_le_mul_right _ lines
  have stored (m : ℕ) (inside : m < 3 * (height.toNat * width.toNat)) :
      array[m]? = some (byteAt m) := by
    rw [List.getElem?_map, List.getElem?_range inside, Option.map_some]
  have longer : 3 * width.toNat < stride 24 width.toNat := by
    rw [stride_color]
    omega
  have inside : stride 24 width.toNat < 3 * (height.toNat * width.toNat) := by
    rw [stride_color]
    by_cases single : width.toNat = 1
    · rw [single] at rows ⊢
      omega
    · omega
  refine ⟨array, intact, fun fresh heap bmp' rest loads same => ?_⟩
  have component := reload_component intact loads (show 1 < height.toNat by omega)
    (show 0 < width.toNat by omega) (show 0 < 3 by omega)
    (show 1 * stride 24 width.toNat + (3 * 0 + 0) < array.length by omega)
  rw [same] at component
  change array[3 * (1 * width.toNat + 0) + 0]? = array[1 * stride 24 width.toNat + (3 * 0 + 0)]?
    at component
  rw [stored _ (by omega), stored _ (by omega)] at component
  have first : byteAt (3 * (1 * width.toNat + 0) + 0) = 1 := if_pos (by omega)
  have second : byteAt (1 * stride 24 width.toNat + (3 * 0 + 0)) = 0 := if_neg (by omega)
  rw [first, second] at component
  exact absurd (Option.some_inj.mp component) (by decide)

/-- Some picture has a given size. -/
private theorem intact_black {width height : BitVec 32}
    (size : 3 * (height.toNat * width.toNat) < 2 ^ 32) :
    Intact (ofArray width height (List.replicate (3 * (height.toNat * width.toNat)) 0)) :=
  ⟨rfl, size, List.length_replicate⟩

/-- **Round trip.** Every picture of a size can be written and loaded, and is loaded back as it
was written, if and only if the bytes beyond the compression were zero and either lines of
that width need no padding or there is at most one line. -/
theorem reload_iff (width height : BitVec 32) (beyond : BitVec 16)
    (size : 3 * (height.toNat * width.toNat) < 2 ^ 32) :
    (∀ bmp, Intact bmp → bmp.infoheader.width = width → bmp.infoheader.height = height →
      ∃ file, write bmp beyond = .ok file ∧ ∀ fresh heap, ∃ bmp' rest,
        load fresh heap file = .ok bmp' rest ∧ bmp'.array = bmp.array) ↔
      beyond = 0 ∧ (4 ∣ width.toNat ∨ height.toNat ≤ 1) := by
  constructor
  · intro returns
    obtain ⟨file, writes, loads⟩ := returns _ (intact_black size) rfl rfl
    rw [write_of_intact (intact_black size)] at writes
    cases writes
    obtain ⟨bmp', rest, loaded, -⟩ := loads (blank ⟨0, Vector.replicate 1024 0⟩) fun _ => 0
    obtain rfl := (load_written_iff (intact_black size) beyond _ _).mp ⟨bmp', rest, loaded⟩
    refine ⟨rfl, ?_⟩
    by_contra none
    rw [not_or, Nat.not_le] at none
    obtain ⟨array, intact, differs⟩ := reload_of_padded size none.1 none.2
    obtain ⟨file, writes, loads⟩ := returns _ intact rfl rfl
    rw [write_of_intact intact] at writes
    cases writes
    obtain ⟨bmp', rest, loaded, same⟩ := loads (blank ⟨0, Vector.replicate 1024 0⟩) fun _ => 0
    exact differs _ _ _ _ loaded same
  · rintro ⟨rfl, aligned⟩ bmp intact rfl rfl
    exact reload_of_intact intact aligned

/-- A size that comes back, one whose lines need padding, and the first one again where the
memory beyond the compression is not zero. -/
theorem reload_iff_narrow :
    (∀ bmp, Intact bmp → bmp.infoheader.width = 4 → bmp.infoheader.height = 2 →
      ∃ file, write bmp 0 = .ok file ∧ ∀ fresh heap, ∃ bmp' rest,
        load fresh heap file = .ok bmp' rest ∧ bmp'.array = bmp.array) ∧
    (¬ ∀ bmp, Intact bmp → bmp.infoheader.width = 1 → bmp.infoheader.height = 2 →
      ∃ file, write bmp 0 = .ok file ∧ ∀ fresh heap, ∃ bmp' rest,
        load fresh heap file = .ok bmp' rest ∧ bmp'.array = bmp.array) ∧
    ¬ ∀ bmp, Intact bmp → bmp.infoheader.width = 4 → bmp.infoheader.height = 2 →
      ∃ file, write bmp 24 = .ok file ∧ ∀ fresh heap, ∃ bmp' rest,
        load fresh heap file = .ok bmp' rest ∧ bmp'.array = bmp.array :=
  ⟨(reload_iff 4 2 0 (by decide)).mpr (by decide),
    fun same => absurd ((reload_iff 1 2 0 (by decide)).mp same) (by decide),
    fun same => absurd ((reload_iff 4 2 24 (by decide)).mp same) (by decide)⟩

/-- A picture that was loaded from a file can be written, and comes back from the file that is
written if nothing was beyond the compression and its lines need no padding. -/
theorem copy_of_load {fresh bmp : CcsBmpObject} {heap : ℕ → BitVec 8} {file rest : File}
    (whole : 54 ≤ file.length) (loads : load fresh heap file = .ok bmp rest)
    (aligned : 4 ∣ bmp.infoheader.width.toNat ∨ bmp.infoheader.height.toNat ≤ 1) :
    ∃ copy, write bmp 0 = .ok copy ∧ ∀ fresh' heap', ∃ bmp' rest',
      load fresh' heap' copy = .ok bmp' rest' ∧ bmp'.array = bmp.array :=
  reload_of_intact (intact_of_load whole loads) aligned

end CcsBmpObject

end DownSample
