import DownSample.Bitmap.Rows

/-! # Loading a bitmap file

The constructor of `ccs_bmpfile` takes a file by its headers alone: the signature, no
compression, a depth it knows and a picture whose bytes can be counted in 32 bits
(`DownSample.CcsBmpObject.load_returns_iff`). The pixels are taken to start behind the
headers and the table of colours, whatever the header says of their offset.

What was in memory before shows through where the file does not fill it. At 8 and 24 bits
a pixel a whole file is loaded from its bytes alone. At 1 and 4 bits a pixel has the first
colour of the table, or, if it starts a byte and is not 0, what the table held before at an
entry that is not read (`DownSample.CcsBmpObject.load_pixels`).
-/

namespace DownSample

open Imperative

namespace CcsBmpObject

/-- What `new unsigned char[3 * width * height]` returns: memory that holds anything. -/
def allocate (infoheader : CcsBmpInfoHeader) (heap : ℕ → BitVec 8) : List (BitVec 8) :=
  (List.range (3 * infoheader.width * infoheader.height).toNat).map heap

/-- The call of `readarray` in the constructor. -/
def readLines (bmp : CcsBmpObject) (colortable : Option CcsBmpColorTable) :
    EStateM BmpFault File CcsBmpObject := fun fp =>
  match readarray colortable { fp := fp, bmp := bmp, index := 0 } with
  | .ok _ s => .ok s.bmp s.fp
  | .error fault s => .error fault s.fp

/-- The constructor of `ccs_bmpfile`, on a file that could be opened. Nothing initialises
the members of the object before. -/
def load (fresh : CcsBmpObject) (heap : ℕ → BitVec 8) : EStateM BmpFault File CcsBmpObject := do
  let header ← fresh.header.read
  let infoheader ← fresh.infoheader.read
  if infoheader.compression ≠ 0 then
    throw (.assertion .uncompressed)
  let bmp : CcsBmpObject := { fresh with
    header := header
    infoheader := infoheader
    array := allocate infoheader heap }
  if infoheader.bitcount ≤ 8 then
    let colortable ← fresh.colortable.read infoheader.bitcount
    readLines { bmp with colortable := colortable } (some colortable)
  else
    if infoheader.bitcount ≠ 24 then
      throw (.assertion .arrayDepth)
    readLines bmp none

/-- The array has three bytes for every pixel of the information header, modulo `2 ^ 32`. -/
theorem length_allocate (infoheader : CcsBmpInfoHeader) (heap : ℕ → BitVec 8) :
    (allocate infoheader heap).length =
      3 * (infoheader.height.toNat * infoheader.width.toNat) % 2 ^ 32 := by
  have three : (3 : BitVec 32).toNat = 3 := rfl
  rw [allocate, List.length_map, List.length_range, BitVec.toNat_mul, BitVec.toNat_mul, three,
    Nat.mod_mul_mod, Nat.mul_assoc, Nat.mul_comm infoheader.width.toNat]

/-! ## What is read -/

/-- The number of bytes that the table of colours takes in a file. -/
def tableBytes (depth : ℕ) : ℕ := if depth = 24 then 0 else 4 * 2 ^ depth

/-- The table that is read from a file, if any: the bytes of the file and, beyond them, what
was in the table before. -/
structure TableRead (fresh : CcsBmpColorTable) (file : File) (depth : ℕ)
    (colortable : Option CcsBmpColorTable) : Prop where
  tabled : Tabled depth colortable
  entries : ∀ table, colortable = some table → ∀ k, (inside : k < 1024) → table.array[k] =
    if k < tableBytes depth ∧ 54 + k < file.length then file.getD (54 + k) 0 else fresh.array[k]

/-- The depth that a file says its pixels have. -/
def depthOf (file : File) : ℕ := (CcsBmpInfoHeader.inFile 14 file).bitcount.toNat

/-- The number of pixels in a line of a file. -/
def columnsOf (file : File) : ℕ := (CcsBmpInfoHeader.inFile 14 file).width.toNat

/-- The number of lines of a file. -/
def rowsOf (file : File) : ℕ := (CcsBmpInfoHeader.inFile 14 file).height.toNat

/-- The files whose headers the constructor accepts. -/
structure Accepted (file : File) : Prop where
  whole : 54 ≤ file.length
  signature : (CcsBmpHeader.inFile file).signature = (66, 77)
  uncompressed : (CcsBmpInfoHeader.inFile 14 file).compression = 0
  readable : Readable (depthOf file)

/-- A file of one pixel of 24 bits. -/
def onePixel : File :=
  [66, 77, 58, 0, 0, 0, 0, 0, 0, 0, 54, 0, 0, 0,
    40, 0, 0, 0, 1, 0, 0, 0, 1, 0, 0, 0, 1, 0, 24, 0, 0, 0, 0, 0, 4, 0, 0, 0,
    0, 0, 0, 0, 0, 0, 0, 0, 0, 0, 0, 0, 0, 0, 0, 0, 10, 20, 30, 0]

theorem onePixel_accepted : Accepted onePixel :=
  ⟨by decide, by decide, by decide, by decide⟩

theorem onePixel_size : 3 * (rowsOf onePixel * columnsOf onePixel) < 2 ^ 32 := by decide

/-- An object whose members hold anything. -/
def blank (colortable : CcsBmpColorTable) : CcsBmpObject where
  header := ⟨(0, 0), 0, 0, 0⟩
  infoheader := ⟨0, 0, 0, 0, 0, 0, 0, 0, 0, 0, 0⟩
  colortable := colortable
  array := []
  bytesleft := 0
  fourbytebuffer := 0
  bitsleft := 0
  pixelbuffer := 0

/-- The object that a file is loaded into. -/
structure Loaded (fresh : CcsBmpObject) (file : File) (bmp : CcsBmpObject) : Prop where
  header : bmp.header = CcsBmpHeader.inFile file
  infoheader : bmp.infoheader = CcsBmpInfoHeader.inFile 14 file
  length : bmp.array.length = 3 * (rowsOf file * columnsOf file)
  pixels : ∃ colortable, TableRead fresh.colortable file (depthOf file) colortable ∧
    ∀ m < 3 * (rowsOf file * columnsOf file), ∃ byte, bmp.array[m]? = some byte ∧
      ReadFrom colortable (depthOf file) (columnsOf file) file (54 + tableBytes (depthOf file)) m
        byte

section Load

variable {fresh : CcsBmpObject} {heap : ℕ → BitVec 8} {file : File}

theorem bitcount_eq (file : File) :
    (CcsBmpInfoHeader.inFile 14 file).bitcount = BitVec.ofNat 16 (depthOf file) := by
  rw [depthOf, BitVec.ofNat_toNat, BitVec.setWidth_eq]

/-- The table of an accepted file is read from the bytes behind the headers. -/
private theorem read_colortable (fresh : CcsBmpColorTable) (file : File) {depth : ℕ}
    (readable : Readable depth) (packed : depth ≠ 24) :
    ∃ table, fresh.read (BitVec.ofNat 16 depth) (file.drop 54) =
        .ok table (file.drop (54 + tableBytes depth)) ∧
      TableRead fresh file depth (some table) := by
  have fills (numcolors : BitVec 32) (reads : fresh.read (BitVec.ofNat 16 depth) =
      fresh.fill numcolors (tableBytes depth)) :
      ∃ table, fresh.read (BitVec.ofNat 16 depth) (file.drop 54) =
          .ok table (file.drop (54 + tableBytes depth)) ∧
        TableRead fresh file depth (some table) := by
    obtain ⟨table, filled, entries⟩ := fresh.getElem_fill numcolors (tableBytes depth) file 54
    exact ⟨table, reads ▸ filled, {
      tabled := ⟨fun none => (nomatch none), fun color => absurd color packed⟩
      entries := fun _ same => Option.some_inj.mp same ▸ entries }⟩
  rcases readable with rfl | rfl | rfl | rfl
  · exact fills 2 rfl
  · exact fills 16 rfl
  · exact fills 256 rfl
  · exact absurd rfl packed

/-- The headers of a file that starts with them, where the signature is right. -/
private theorem load_of_signature (fresh : CcsBmpObject) (whole : 54 ≤ file.length)
    (signature : (CcsBmpHeader.inFile file).signature = (66, 77)) :
    fresh.header.read file = .ok (CcsBmpHeader.inFile file) (file.drop 14) ∧
      fresh.infoheader.read (file.drop 14) =
        .ok (CcsBmpInfoHeader.inFile 14 file) (file.drop 54) := by
  have first : fieldAt 8 1 0 file = (66 : BitVec 8) := congrArg Prod.fst signature
  have second : fieldAt 8 1 1 file = (77 : BitVec 8) := congrArg Prod.snd signature
  refine ⟨?_, CcsBmpInfoHeader.read_inFile _ file 14 (by omega)⟩
  rw [CcsBmpHeader.read_inFile _ file (by omega), if_neg (not_not.mpr first),
    if_neg (not_not.mpr second)]

/-- The constructor reads the headers and the table of an accepted file and goes on with its
lines. -/
private theorem load_of_accepted (accepted : Accepted file) (fresh : CcsBmpObject)
    (heap : ℕ → BitVec 8) :
    ∃ bmp colortable, load fresh heap file =
        readLines bmp colortable (file.drop (54 + tableBytes (depthOf file))) ∧
      TableRead fresh.colortable file (depthOf file) colortable ∧
      bmp.header = CcsBmpHeader.inFile file ∧
      bmp.infoheader = CcsBmpInfoHeader.inFile 14 file ∧
      bmp.array = allocate (CcsBmpInfoHeader.inFile 14 file) heap := by
  obtain ⟨header, infoheader⟩ := load_of_signature fresh accepted.whole accepted.signature
  have bitcount := bitcount_eq file
  unfold load
  rw [bind_of_ok header, bind_of_ok infoheader, if_neg (not_not.mpr accepted.uncompressed)]
  by_cases color : depthOf file = 24
  · have large : ¬ BitVec.ofNat 16 24 ≤ 8 := by decide
    have known : ¬ BitVec.ofNat 16 24 ≠ 24 := by decide
    rw [bitcount, color, if_neg large, if_neg known]
    exact ⟨_, none, rfl, {
      tabled := ⟨fun _ => rfl, fun _ => rfl⟩
      entries := fun _ same => nomatch same }, rfl, rfl, rfl⟩
  · obtain ⟨table, reads, tableRead⟩ :=
      read_colortable fresh.colortable file accepted.readable color
    have small : BitVec.ofNat 16 (depthOf file) ≤ 8 := by
      have readable := accepted.readable
      unfold Readable at readable
      obtain depth | depth | depth : depthOf file = 1 ∨ depthOf file = 4 ∨ depthOf file = 8 := by
        omega
      all_goals rw [depth]; decide
    rw [bitcount, if_pos small]
    exact ⟨_, some table, bind_of_ok reads, tableRead, rfl, rfl, rfl⟩

/-- The lines of a picture are loaded, or the array is too small for them. -/
private theorem readLines_outcome {bmp : CcsBmpObject} {colortable : Option CcsBmpColorTable}
    {depth width start : ℕ} (format : Format depth width colortable bmp.infoheader) {fp : File}
    (place : fp = file.drop start) :
    (∃ bmp' rest, readLines bmp colortable fp = .ok bmp' rest ∧
        3 * (bmp.infoheader.height.toNat * width) ≤ bmp.array.length ∧
        bmp'.headers = bmp.headers ∧ bmp'.array.length = bmp.array.length ∧
        ∀ m < 3 * (bmp.infoheader.height.toNat * width), ∃ byte, bmp'.array[m]? = some byte ∧
          ReadFrom colortable depth width file start m byte) ∨
      ∃ place rest, readLines bmp colortable fp = .error (.arrayOutOfRange place) rest ∧
        bmp.array.length < 3 * (bmp.infoheader.height.toNat * width) := by
  let s : Loading := ⟨fp, bmp, 0⟩
  rcases readarray_outcome (s := s) format place rfl rfl with
    ⟨s', reads, filled, same⟩ | ⟨fault, s', faults, ⟨outside, rfl⟩, short⟩
  · refine Or.inl ⟨s'.bmp, s'.fp, ?_, filled.room, same, filled.allocated, filled.array⟩
    unfold readLines
    rw [show readarray colortable ⟨fp, bmp, 0⟩ = _ from reads]
  · refine Or.inr ⟨outside, s'.fp, ?_, short⟩
    unfold readLines
    rw [show readarray colortable ⟨fp, bmp, 0⟩ = _ from faults]

/-- Lines that were read into the array of the constructor have filled it. -/
private theorem array_of_readLines {bmp bmp' : CcsBmpObject} {fp rest : File} {depth : ℕ}
    {colortable : Option CcsBmpColorTable} (readable : Readable depth)
    (tabled : Tabled depth colortable)
    (bitcount : bmp.infoheader.bitcount = BitVec.ofNat 16 depth)
    (array : bmp.array = allocate bmp.infoheader heap)
    (reads : readLines bmp colortable fp = .ok bmp' rest) :
    bmp'.array.length = 3 * (bmp'.infoheader.height.toNat * bmp'.infoheader.width.toNat) ∧
      bmp'.array.length < 2 ^ 32 := by
  have format : Format depth bmp.infoheader.width.toNat colortable bmp.infoheader :=
    ⟨readable, tabled, bitcount, rfl⟩
  have wraps := length_allocate bmp.infoheader heap
  rw [← array] at wraps
  rcases readLines_outcome format (show fp = fp.drop 0 from rfl) with
    ⟨bmp'', rest', reads', room, headers, sameLength, _⟩ | ⟨place, rest', faults, _⟩
  · cases reads.symm.trans reads'
    have infoheader : bmp'.infoheader = bmp.infoheader :=
      congrArg (fun members => members.2.1) headers
    have small := Nat.mod_le (3 * (bmp.infoheader.height.toNat * bmp.infoheader.width.toNat))
      (2 ^ 32)
    rw [infoheader, sameLength]
    constructor <;> omega
  · cases reads.symm.trans faults

private theorem depth_of_read {table filled : CcsBmpColorTable} {bitsperpixel : BitVec 16}
    {fp rest : File} (reads : table.read bitsperpixel fp = .ok filled rest) :
    ∃ depth, Readable depth ∧ depth ≠ 24 ∧ bitsperpixel = BitVec.ofNat 16 depth := by
  unfold CcsBmpColorTable.read at reads
  by_cases one : bitsperpixel = 1
  · exact ⟨1, by decide, by decide, one⟩
  by_cases four : bitsperpixel = 4
  · exact ⟨4, by decide, by decide, four⟩
  by_cases eight : bitsperpixel = 8
  · exact ⟨8, by decide, by decide, eight⟩
  rw [if_neg one, if_neg four, if_neg eight] at reads
  exact nomatch reads

private theorem array_of_load {bmp : CcsBmpObject} {rest : File}
    (loads : load fresh heap file = .ok bmp rest) :
    bmp.array.length = 3 * (bmp.infoheader.height.toNat * bmp.infoheader.width.toNat) ∧
      bmp.array.length < 2 ^ 32 := by
  unfold load at loads
  obtain ⟨header, fp₁, headerRead, loads⟩ := bind_ok loads
  obtain ⟨infoheader, fp₂, infoheaderRead, loads⟩ := bind_ok loads
  by_cases uncompressed : infoheader.compression = 0
  · rw [if_neg (not_not.mpr uncompressed)] at loads
    by_cases packed : infoheader.bitcount ≤ 8
    · rw [if_pos packed] at loads
      obtain ⟨colortable, fp₃, colortableRead, loads⟩ := bind_ok loads
      obtain ⟨depth, readable, notColor, bitcount⟩ := depth_of_read colortableRead
      have tabled : Tabled depth (some colortable) :=
        ⟨fun none => (nomatch none), fun color => absurd color notColor⟩
      exact array_of_readLines readable tabled bitcount rfl loads
    · rw [if_neg packed] at loads
      by_cases color : infoheader.bitcount = 24
      · rw [if_neg (not_not.mpr color)] at loads
        exact array_of_readLines (show Readable 24 by decide) ⟨fun _ => rfl, fun _ => rfl⟩ color
          rfl
          loads
      · rw [if_pos color] at loads
        exact nomatch loads
  · rw [if_pos uncompressed] at loads
    exact nomatch loads

/-- Whatever a file holds, an object that is constructed has three bytes for every pixel. -/
theorem length_of_load {bmp : CcsBmpObject} {rest : File}
    (loads : load fresh heap file = .ok bmp rest) :
    bmp.array.length = 3 * (bmp.infoheader.height.toNat * bmp.infoheader.width.toNat) :=
  (array_of_load loads).1

/-- The bytes of the pixels of an object that is constructed can be counted in 32 bits. -/
theorem size_of_load {bmp : CcsBmpObject} {rest : File}
    (loads : load fresh heap file = .ok bmp rest) :
    3 * (bmp.infoheader.height.toNat * bmp.infoheader.width.toNat) < 2 ^ 32 :=
  (array_of_load loads).1 ▸ (array_of_load loads).2

/-- **An accepted file** is loaded if three bytes for every pixel can be counted in 32 bits,
and otherwise a byte is stored outside the array. -/
theorem load_outcome (accepted : Accepted file) (fresh : CcsBmpObject) (heap : ℕ → BitVec 8) :
    3 * (rowsOf file * columnsOf file) < 2 ^ 32 ∧
        (∃ bmp rest, load fresh heap file = .ok bmp rest ∧ Loaded fresh file bmp) ∨
      2 ^ 32 ≤ 3 * (rowsOf file * columnsOf file) ∧
        ∃ place rest, load fresh heap file = .error (.arrayOutOfRange place) rest := by
  obtain ⟨bmp, colortable, loads, tableRead, header, infoheader, array⟩ :=
    load_of_accepted accepted fresh heap
  have format : Format (depthOf file) (columnsOf file) colortable bmp.infoheader := {
    readable := accepted.readable
    tabled := tableRead.tabled
    bitcount := by rw [infoheader, bitcount_eq]
    width := by rw [infoheader, columnsOf] }
  have rows : bmp.infoheader.height.toNat = rowsOf file := by rw [infoheader, rowsOf]
  have length : bmp.array.length = 3 * (rowsOf file * columnsOf file) % 2 ^ 32 := by
    rw [array, length_allocate, rowsOf, columnsOf]
  rw [loads]
  rcases readLines_outcome format rfl with
    ⟨bmp', rest, reads, room, headers, sameLength, pixels⟩ | ⟨place, rest, faults, short⟩
  · rw [rows, length] at room
    have size : 3 * (rowsOf file * columnsOf file) < 2 ^ 32 :=
      lt_of_le_of_lt room (Nat.mod_lt _ (by decide))
    refine Or.inl ⟨size, bmp', rest, reads, ?_⟩
    exact {
      header := (congrArg (fun members => members.1) headers).trans header
      infoheader := (congrArg (fun members => members.2.1) headers).trans infoheader
      length := by rw [sameLength, length, Nat.mod_eq_of_lt size]
      pixels := ⟨colortable, tableRead, rows ▸ pixels⟩ }
  · rw [rows, length] at short
    refine Or.inr ⟨?_, place, rest, faults⟩
    by_contra small
    rw [Nat.mod_eq_of_lt (Nat.not_le.mp small)] at short
    exact lt_irrefl _ short

/-- An accepted file is loaded if three bytes for every pixel can be counted in 32 bits. -/
theorem loads_of_accepted (accepted : Accepted file)
    (size : 3 * (rowsOf file * columnsOf file) < 2 ^ 32) (fresh : CcsBmpObject)
    (heap : ℕ → BitVec 8) : ∃ bmp rest, load fresh heap file = .ok bmp rest ∧
      Loaded fresh file bmp := by
  rcases load_outcome accepted fresh heap with ⟨_, loads⟩ | ⟨large, _⟩
  · exact loads
  · exact absurd size (Nat.not_lt.mpr large)

/-- A file that is not accepted fails an assertion. -/
private theorem load_of_refused (fresh : CcsBmpObject) (heap : ℕ → BitVec 8)
    (whole : 54 ≤ file.length) (refused : ¬ Accepted file) :
    ∃ failed rest, load fresh heap file = .error (.assertion failed) rest := by
  have header := fresh.header.read_inFile file (by omega)
  by_cases first : fieldAt 8 1 0 file = (66 : BitVec 8)
  swap
  · rw [if_pos first] at header
    exact ⟨_, _, bind_of_error header⟩
  by_cases second : fieldAt 8 1 1 file = (77 : BitVec 8)
  swap
  · rw [if_neg (not_not.mpr first), if_pos second] at header
    exact ⟨_, _, bind_of_error header⟩
  have signature : (CcsBmpHeader.inFile file).signature = (66, 77) :=
    congrArg₂ Prod.mk first second
  obtain ⟨header, infoheader⟩ := load_of_signature fresh whole signature
  unfold load
  rw [bind_of_ok header, bind_of_ok infoheader]
  by_cases uncompressed : (CcsBmpInfoHeader.inFile 14 file).compression = 0
  swap
  · rw [if_pos uncompressed]
    exact ⟨_, _, rfl⟩
  have other (depth : ℕ) (readable : Readable depth) :
      (CcsBmpInfoHeader.inFile 14 file).bitcount ≠ BitVec.ofNat 16 depth := by
    intro same
    have small : depth < 2 ^ 16 := by
      unfold Readable at readable
      omega
    refine refused ⟨whole, signature, uncompressed, ?_⟩
    rwa [depthOf, same, BitVec.toNat_ofNat, Nat.mod_eq_of_lt small]
  have one : (CcsBmpInfoHeader.inFile 14 file).bitcount ≠ 1 := other 1 (by decide)
  have four : (CcsBmpInfoHeader.inFile 14 file).bitcount ≠ 4 := other 4 (by decide)
  have eight : (CcsBmpInfoHeader.inFile 14 file).bitcount ≠ 8 := other 8 (by decide)
  have color : (CcsBmpInfoHeader.inFile 14 file).bitcount ≠ 24 := other 24 (by decide)
  rw [if_neg (not_not.mpr uncompressed)]
  by_cases packed : (CcsBmpInfoHeader.inFile 14 file).bitcount ≤ 8
  · have fails (fp : File) :
        fresh.colortable.read (CcsBmpInfoHeader.inFile 14 file).bitcount fp =
          .error (.assertion .colortableDepth) fp := by
      unfold CcsBmpColorTable.read
      rw [if_neg one, if_neg four, if_neg eight]
      rfl
    rw [if_pos packed]
    exact ⟨_, _, bind_of_error (fails _)⟩
  · rw [if_neg packed, if_pos color]
    exact ⟨_, _, rfl⟩

/-- A file that is loaded has been accepted. -/
private theorem accepted_of_load (whole : 54 ≤ file.length) {bmp : CcsBmpObject} {rest : File}
    (loads : load fresh heap file = .ok bmp rest) : Accepted file := by
  by_contra refused
  obtain ⟨failed, rest', fails⟩ := load_of_refused fresh heap whole refused
  exact nomatch loads.symm.trans fails

/-- **What can be loaded.** Of the files that have whole headers, the constructor returns on
exactly those with the signature, without compression, of 1, 4, 8 or 24 bits a pixel, and
with less than 2 ^ 32 bytes of pixels. Headers that it does not accept fail an assertion; of a
larger picture it stores a byte outside the array. -/
theorem load_returns_iff (fresh : CcsBmpObject) (heap : ℕ → BitVec 8) (file : File)
    (whole : 54 ≤ file.length) :
    ((∃ bmp rest, load fresh heap file = .ok bmp rest) ↔
      (CcsBmpHeader.inFile file).signature = (66, 77) ∧
        (CcsBmpInfoHeader.inFile 14 file).compression = 0 ∧ Readable (depthOf file) ∧
        3 * (rowsOf file * columnsOf file) < 2 ^ 32) ∧
    (¬ ((CcsBmpHeader.inFile file).signature = (66, 77) ∧
        (CcsBmpInfoHeader.inFile 14 file).compression = 0 ∧ Readable (depthOf file)) →
      ∃ failed rest, load fresh heap file = .error (.assertion failed) rest) ∧
    ((CcsBmpHeader.inFile file).signature = (66, 77) ∧
        (CcsBmpInfoHeader.inFile 14 file).compression = 0 ∧ Readable (depthOf file) ∧
        2 ^ 32 ≤ 3 * (rowsOf file * columnsOf file) →
      ∃ place rest, load fresh heap file = .error (.arrayOutOfRange place) rest) := by
  refine ⟨⟨?_, ?_⟩, fun refused => ?_, ?_⟩
  · rintro ⟨bmp, rest, loads⟩
    have accepted := accepted_of_load whole loads
    refine ⟨accepted.signature, accepted.uncompressed, accepted.readable, ?_⟩
    rcases load_outcome accepted fresh heap with ⟨size, _⟩ | ⟨_, place, rest', faults⟩
    · exact size
    · rw [loads] at faults
      cases faults
  · rintro ⟨signature, uncompressed, readable, size⟩
    obtain ⟨bmp, rest, loads, _⟩ :=
      loads_of_accepted ⟨whole, signature, uncompressed, readable⟩ size fresh heap
    exact ⟨bmp, rest, loads⟩
  · exact load_of_refused fresh heap whole fun accepted =>
      refused ⟨accepted.signature, accepted.uncompressed, accepted.readable⟩
  · rintro ⟨signature, uncompressed, readable, large⟩
    have accepted : Accepted file := ⟨whole, signature, uncompressed, readable⟩
    rcases load_outcome accepted fresh heap with ⟨size, _⟩ | ⟨_, faults⟩
    · exact absurd size (Nat.not_lt.mpr large)
    · exact faults

/-- The picture of one pixel loads, whatever was there before. -/
theorem load_returns_onePixel (fresh : CcsBmpObject) (heap : ℕ → BitVec 8) :
    ∃ bmp rest, load fresh heap onePixel = .ok bmp rest := by
  obtain ⟨bmp, rest, loads, _⟩ := loads_of_accepted onePixel_accepted onePixel_size fresh heap
  exact ⟨bmp, rest, loads⟩

/-- A picture that is loaded, one whose compression is not 0, and one whose dimensions have
255 as their high bytes. -/
theorem load_returns_iff_onePixel :
    (∃ bmp rest, load (blank ⟨0, Vector.replicate 1024 0⟩) (fun _ => 0) onePixel = .ok bmp rest) ∧
      (∃ failed rest, load (blank ⟨0, Vector.replicate 1024 0⟩) (fun _ => 0) (onePixel.set 30 1) =
        .error (.assertion failed) rest) ∧
      ∃ place rest, load (blank ⟨0, Vector.replicate 1024 0⟩) (fun _ => 0)
        ((onePixel.set 21 255).set 25 255) = .error (.arrayOutOfRange place) rest :=
  ⟨(load_returns_iff _ _ onePixel (by decide)).1.mpr
      ⟨by decide, by decide, by decide, by decide⟩,
    (load_returns_iff _ _ (onePixel.set 30 1) (by decide)).2.1 (by decide),
    (load_returns_iff _ _ ((onePixel.set 21 255).set 25 255) (by decide)).2.2
      ⟨by decide, by decide, by decide, by decide⟩⟩

end Load

/-! ## Contents -/

/-- Where line `i` of a file starts whose lines are right behind its headers and a full table of
colours. The constructor takes every file as such a one, whatever offset the header names. -/
def lineStart (file : File) (i : ℕ) : ℕ :=
  54 + tableBytes (depthOf file) + i * stride (depthOf file) (columnsOf file)

/-- Byte `k` of line `i` of a file. -/
def lineByte (file : File) (i k : ℕ) : BitVec 8 := file.getD (lineStart file i + k) 0

/-- Pixel `j` of line `i` of a file of at most 8 bits a pixel, as the format packs it. -/
def pixelInFile (file : File) (i j : ℕ) : ℕ := packedPixel (depthOf file) (lineByte file i) j

/-- Component `c` of pixel `j` of line `i` of a file, as the format gives it: a byte of the
line, or of the entry of the table that the pixel selects. Blue is component 0, green 1 and
red 2. -/
def colorInFile (file : File) (i j c : ℕ) : BitVec 8 :=
  if depthOf file = 24 then lineByte file i (3 * j + c)
  else file.getD (54 + (4 * pixelInFile file i j + c)) 0

/-- What `getpixel` returns for pixel `j` of line `i` of a file. -/
def getpixelOf (file : File) (i j : ℕ) : BitVec 32 :=
  getpixelAt (depthOf file) (lineByte file i) j

/-- The byte that the constructor stores for a component of a pixel: a byte of the file, of its
table, or of what was in the table before, by what `getpixel` returns. -/
def loadedByte (fresh : CcsBmpColorTable) (file : File) (i j c : ℕ) : BitVec 8 :=
  if depthOf file = 24 then lineByte file i (3 * j + c)
  else
    let place := 4 * (getpixelOf file i j).toNat + c
    if place < tableBytes (depthOf file) then file.getD (54 + place) 0
    else (fresh.array[place]?).getD 0

/-- The files that are not cut short within a line. -/
def Whole (file : File) : Prop :=
  ∀ i < rowsOf file, lineStart file i + bytesTaken (depthOf file) (columnsOf file) ≤ file.length

instance (file : File) : Decidable (Whole file) := Nat.decidableBallLT _ _

section Contents

variable {fresh : CcsBmpObject} {heap : ℕ → BitVec 8} {file : File} {bmp : CcsBmpObject}
  {i j c : ℕ}

/-- A component whose bytes are in the file. -/
theorem Loaded.array_of_pixel (loaded : Loaded fresh file bmp) (readable : Readable (depthOf file))
    (row : i < rowsOf file) (column : j < columnsOf file) (within : c < 3)
    (there : lineStart file i + bytesUpTo (depthOf file) j c ≤ file.length) :
    bmp.array[3 * (i * columnsOf file + j) + c]? =
      some (loadedByte fresh.colortable file i j c) := by
  obtain ⟨colortable, tableRead, pixels⟩ := loaded.pixels
  have pixel : i * columnsOf file + j < rowsOf file * columnsOf file := by
    have rows : (i + 1) * columnsOf file ≤ rowsOf file * columnsOf file :=
      Nat.mul_le_mul_right _ row
    rw [Nat.succ_mul] at rows
    omega
  obtain ⟨byte, stored, reads⟩ := pixels (3 * (i * columnsOf file + j) + c) (by omega)
  rw [stored, reads.inside readable tableRead.tabled column within there, loadedByte]
  cases colortable with
  | none =>
      rw [if_pos (tableRead.tabled.mp rfl)]
      rfl
  | some table =>
      have packed : depthOf file ≠ 24 := fun color => nomatch tableRead.tabled.mpr color
      have small := getpixelAt_lt packed (lineByte file i) j
      have inside : 4 * (getpixelOf file i j).toNat + c < 1024 := by
        unfold getpixelOf
        omega
      have entry := tableRead.entries table rfl _ inside
      have known : tableBytes (depthOf file) ≤ file.length - 54 := by
        unfold lineStart at there
        omega
      rw [if_neg packed]
      change some ((table.array[4 * (getpixelOf file i j).toNat + c]?).getD 0) = _
      rw [Vector.getElem?_eq_getElem inside, Option.getD_some, entry]
      by_cases read : 4 * (getpixelOf file i j).toNat + c < tableBytes (depthOf file)
      · rw [if_pos ⟨read, by omega⟩, if_pos read]
      · rw [if_neg fun both => read both.1, if_neg read, Vector.getElem?_eq_getElem inside,
          Option.getD_some]

/-- What is known of a file that was loaded. -/
theorem loaded_of_load (whole : 54 ≤ file.length) {rest : File}
    (loads : load fresh heap file = .ok bmp rest) :
    Accepted file ∧ 3 * (rowsOf file * columnsOf file) < 2 ^ 32 ∧ Loaded fresh file bmp := by
  have accepted := accepted_of_load whole loads
  rcases load_outcome accepted fresh heap with
    ⟨size, bmp', rest', loads', loaded⟩ | ⟨_, place, rest', faults⟩
  · cases loads.symm.trans loads'
    exact ⟨accepted, size, loaded⟩
  · cases loads.symm.trans faults

/-- At 8 and 24 bits a pixel, the colours that the format gives are loaded. -/
theorem loadedByte_of_format (table : CcsBmpColorTable)
    (bytes : depthOf file = 8 ∨ depthOf file = 24) (within : c < 3) :
    loadedByte table file i j c = colorInFile file i j c := by
  rcases bytes with byte | color
  · have packed : depthOf file ≠ 24 := by omega
    have taken := toNat_getpixelAt (Or.inr (Or.inr rfl)) (lineByte file i) j
    have aligned : 8 * j % 8 = 0 := Nat.mul_mod_right 8 j
    rw [if_pos aligned, Nat.sub_self, Nat.pow_zero, Nat.mul_one] at taken
    have pixel : (getpixelOf file i j).toNat = pixelInFile file i j := by
      rw [getpixelOf, pixelInFile, byte, taken]
    have small : pixelInFile file i j < 256 := by
      rw [pixelInFile, byte]
      exact Nat.mod_lt _ (by decide)
    have entries : tableBytes (depthOf file) = 1024 := by rw [byte]; rfl
    rw [loadedByte, colorInFile, if_neg packed, if_neg packed, pixel, entries]
    exact if_pos (by omega)
  · rw [loadedByte, colorInFile, if_pos color, if_pos color]

/-- At 1 and 4 bits a pixel, the first entry of the table is loaded, or one that the file does
not have: that of a pixel that starts a byte and is not 0. -/
theorem loadedByte_of_bits (table : CcsBmpColorTable)
    (bits : depthOf file = 1 ∨ depthOf file = 4) (within : c < 3) :
    loadedByte table file i j c =
      if depthOf file * j % 8 = 0 ∧ pixelInFile file i j ≠ 0 then
        (table.array[4 * (pixelInFile file i j * 2 ^ (8 - depthOf file)) + c]?).getD 0
      else file.getD (54 + c) 0 := by
  have packed : depthOf file ≠ 24 := by omega
  have taken : (getpixelOf file i j).toNat = if depthOf file * j % 8 = 0 then
      pixelInFile file i j * 2 ^ (8 - depthOf file) else 0 :=
    toNat_getpixelAt (by omega) (lineByte file i) j
  have entries : tableBytes (depthOf file) = 4 * 2 ^ depthOf file := if_neg packed
  have some : 0 < 2 ^ depthOf file := Nat.two_pow_pos _
  rw [loadedByte, if_neg packed]
  by_cases selected : depthOf file * j % 8 = 0 ∧ pixelInFile file i j ≠ 0
  · have shifts : 2 ^ depthOf file ≤ 2 ^ (8 - depthOf file) :=
      Nat.pow_le_pow_right (by decide) (by omega)
    have beyond : 2 ^ depthOf file ≤ pixelInFile file i j * 2 ^ (8 - depthOf file) :=
      shifts.trans (Nat.le_mul_of_pos_left _ (Nat.pos_of_ne_zero selected.2))
    rw [if_pos selected.1] at taken
    rw [if_pos selected, taken, entries]
    exact if_neg (by omega)
  · have zero : (getpixelOf file i j).toNat = 0 := by
      rw [taken]
      by_cases aligned : depthOf file * j % 8 = 0
      · have nothing : pixelInFile file i j = 0 := by tauto
        rw [if_pos aligned, nothing, Nat.zero_mul]
      · rw [if_neg aligned]
    rw [if_neg selected, zero, entries, Nat.mul_zero, Nat.zero_add]
    exact if_pos (by omega)

/-- **What is loaded**, of every component whose bytes are in the file, whatever the header
says of the offset of the pixels, the size of the file or the colours used. At 8 and 24 bits a
pixel it is the colour that the format gives. At 1 and 4 bits a pixel that starts a byte and
is not 0 is looked up behind the entries that were read, and every other pixel in the
first entry. -/
theorem load_pixels (whole : 54 ≤ file.length) {rest : File}
    (loads : load fresh heap file = .ok bmp rest) :
    bmp.array.length = 3 * (rowsOf file * columnsOf file) ∧
      ∀ i < rowsOf file, ∀ j < columnsOf file, ∀ c < 3,
        lineStart file i + bytesUpTo (depthOf file) j c ≤ file.length →
          (depthOf file = 8 ∨ depthOf file = 24 →
            bmp.array[3 * (i * columnsOf file + j) + c]? = some (colorInFile file i j c)) ∧
          (depthOf file = 1 ∨ depthOf file = 4 →
            bmp.array[3 * (i * columnsOf file + j) + c]? = some (
              if depthOf file * j % 8 = 0 ∧ pixelInFile file i j ≠ 0 then
                (fresh.colortable.array[
                  4 * (pixelInFile file i j * 2 ^ (8 - depthOf file)) + c]?).getD 0
              else file.getD (54 + c) 0)) := by
  obtain ⟨accepted, _, loaded⟩ := loaded_of_load whole loads
  refine ⟨loaded.length, fun i row j column c within there => ?_⟩
  rw [loaded.array_of_pixel accepted.readable row column within there]
  exact ⟨fun bytes => congrArg some (loadedByte_of_format _ bytes within),
    fun bits => congrArg some (loadedByte_of_bits _ bits within)⟩

/-- A file of eight pixels of 1 bit, in a line of one byte. -/
def bitLine (byte : BitVec 8) : File :=
  [66, 77, 66, 0, 0, 0, 0, 0, 0, 0, 62, 0, 0, 0,
    40, 0, 0, 0, 8, 0, 0, 0, 1, 0, 0, 0, 1, 0, 1, 0, 0, 0, 0, 0, 4, 0, 0, 0,
    0, 0, 0, 0, 0, 0, 0, 0, 0, 0, 0, 0, 0, 0, 0, 0,
    0, 0, 0, 0, 255, 255, 255, 0, byte, 0, 0, 0]

theorem bitLine_accepted (byte : BitVec 8) : Accepted (bitLine byte) :=
  ⟨by simp [bitLine], rfl, rfl, Or.inl rfl⟩

theorem bitLine_size (byte : BitVec 8) :
    3 * (rowsOf (bitLine byte) * columnsOf (bitLine byte)) < 2 ^ 32 := by
  change 3 * (1 * 8) < 2 ^ 32
  decide

/-- A line of one byte loads, whatever was there before. -/
theorem load_returns_bitLine (byte : BitVec 8) (fresh : CcsBmpObject) (heap : ℕ → BitVec 8) :
    ∃ bmp rest, load fresh heap (bitLine byte) = .ok bmp rest := by
  obtain ⟨bmp, rest, loads, _⟩ :=
    loads_of_accepted (bitLine_accepted byte) (bitLine_size byte) fresh heap
  exact ⟨bmp, rest, loads⟩

/-- The colour of a picture of one pixel; and of eight pixels of 1 bit that are all 1, the
first from memory that holds 7 and the second from the first entry of the table. -/
theorem load_pixels_onePixel :
    (∃ bmp rest, load (blank ⟨0, Vector.replicate 1024 7⟩) (fun _ => 0) onePixel = .ok bmp rest ∧
      bmp.array[2]? = some 30) ∧
    ∃ bmp rest, load (blank ⟨0, Vector.replicate 1024 7⟩) (fun _ => 0) (bitLine 255) =
      .ok bmp rest ∧ bmp.array[2]? = some 7 ∧ bmp.array[5]? = some 0 := by
  constructor
  · obtain ⟨bmp, rest, loads⟩ :=
      load_returns_onePixel (blank ⟨0, Vector.replicate 1024 7⟩) (fun _ => 0)
    have pixels := (load_pixels onePixel_accepted.whole loads).2 0 (by decide) 0 (by decide) 2
      (by decide) (by decide)
    exact ⟨bmp, rest, loads, pixels.1 (by decide)⟩
  · obtain ⟨bmp, rest, loads⟩ :=
      load_returns_bitLine 255 (blank ⟨0, Vector.replicate 1024 7⟩) (fun _ => 0)
    have pixels := (load_pixels (bitLine_accepted 255).whole loads).2 0 (by decide)
    have first := (pixels 0 (by decide) 2 (by decide) (by decide)).2 (by decide)
    have second := (pixels 1 (by decide) 2 (by decide) (by decide)).2 (by decide)
    have entry : ((Vector.replicate 1024 (7 : BitVec 8))[514]?).getD 0 = 7 := by
      rw [Vector.getElem?_replicate, if_pos (by decide), Option.getD_some]
    rw [if_pos (by decide)] at first
    exact ⟨bmp, rest, loads, first.trans (congrArg some entry), second⟩

/-- Two arrays of a picture are equal if they have the same components at every pixel. -/
theorem array_ext {array array' : List (BitVec 8)} {rows columns : ℕ}
    (length : array.length = 3 * (rows * columns))
    (length' : array'.length = 3 * (rows * columns))
    (same : ∀ i < rows, ∀ j < columns, ∀ c < 3,
      array[3 * (i * columns + j) + c]? = array'[3 * (i * columns + j) + c]?) :
    array = array' := by
  apply List.ext_getElem?
  intro m
  by_cases inside : m < 3 * (rows * columns)
  · have positive : 0 < columns := by
      rcases Nat.eq_zero_or_pos columns with rfl | positive
      · rw [Nat.mul_zero] at inside
        omega
      · exact positive
    have row : m / 3 / columns < rows :=
      (Nat.div_lt_iff_lt_mul positive).mpr (by omega)
    have place : m = 3 * (m / 3 / columns * columns + m / 3 % columns) + m % 3 := by
      rw [Nat.div_add_mod']
      omega
    rw [place]
    exact same _ row _ (Nat.mod_lt _ positive) _ (Nat.mod_lt _ (by decide))
  · rw [List.getElem?_eq_none (by omega), List.getElem?_eq_none (by omega)]

/-- The byte that is loaded for a component depends on what was in memory if and only if
at 1 or 4 bits its pixel starts a byte and is not 0. -/
theorem loadedByte_determined_iff (readable : Readable (depthOf file)) (within : c < 3) :
    (∀ fresh fresh', loadedByte fresh file i j c = loadedByte fresh' file i j c) ↔
      depthOf file = 8 ∨ depthOf file = 24 ∨
        (depthOf file * j % 8 = 0 → pixelInFile file i j = 0) := by
  by_cases bits : depthOf file = 1 ∨ depthOf file = 4
  · have inside : 4 * (pixelInFile file i j * 2 ^ (8 - depthOf file)) + c < 1024 := by
      have small : pixelInFile file i j < 2 ^ depthOf file := Nat.mod_lt _ (Nat.two_pow_pos _)
      have shifted : pixelInFile file i j * 2 ^ (8 - depthOf file) <
          2 ^ depthOf file * 2 ^ (8 - depthOf file) :=
        Nat.mul_lt_mul_of_pos_right small (Nat.two_pow_pos _)
      rw [← Nat.pow_add, Nat.add_sub_cancel' (show depthOf file ≤ 8 by omega)] at shifted
      omega
    constructor
    · intro determined
      refine Or.inr (Or.inr fun aligned => ?_)
      by_contra nonzero
      have same := determined ⟨0, Vector.replicate 1024 0⟩ ⟨0, Vector.replicate 1024 1⟩
      rw [loadedByte_of_bits _ bits within, loadedByte_of_bits _ bits within,
        if_pos ⟨aligned, nonzero⟩, if_pos ⟨aligned, nonzero⟩, Vector.getElem?_replicate,
        Vector.getElem?_replicate, if_pos inside, if_pos inside] at same
      exact absurd same (by decide)
    · intro kinds fresh fresh'
      have first : ¬ (depthOf file * j % 8 = 0 ∧ pixelInFile file i j ≠ 0) := by
        rintro ⟨aligned, nonzero⟩
        rcases kinds with byte | color | zero
        · omega
        · omega
        · exact nonzero (zero aligned)
      rw [loadedByte_of_bits _ bits within, loadedByte_of_bits _ bits within, if_neg first,
        if_neg first]
  · have bytes : depthOf file = 8 ∨ depthOf file = 24 := by
      unfold Readable at readable
      omega
    refine iff_of_true (fun fresh fresh' => ?_) (or_assoc.mp (Or.inl bytes))
    rw [loadedByte_of_format _ bytes within, loadedByte_of_format _ bytes within]

/-- Every byte of a pixel inside the picture is in the file. -/
theorem Whole.component (whole : Whole file) (row : i < rowsOf file) (column : j < columnsOf file)
    (within : c < 3) : lineStart file i + bytesUpTo (depthOf file) j c ≤ file.length :=
  le_trans (Nat.add_le_add_left (bytesUpTo_le column within) _) (whole i row)

/-- **Uninitialised memory.** A file that is not cut short is loaded into the same array from
every memory if and only if it has 8 or 24 bits a pixel, or every pixel that starts a
byte is 0. -/
theorem load_determined_iff (accepted : Accepted file)
    (size : 3 * (rowsOf file * columnsOf file) < 2 ^ 32) (whole : Whole file) :
    (∀ fresh fresh' heap heap' bmp bmp' rest rest', load fresh heap file = .ok bmp rest →
      load fresh' heap' file = .ok bmp' rest' → bmp.array = bmp'.array) ↔
      depthOf file = 8 ∨ depthOf file = 24 ∨
        ∀ i < rowsOf file, ∀ j < columnsOf file,
          depthOf file * j % 8 = 0 → pixelInFile file i j = 0 := by
  constructor
  · intro same
    by_contra none
    rw [not_or, not_or] at none
    obtain ⟨notByte, packed, some⟩ := none
    refine some fun i row j column => ?_
    have determined : ∀ table table',
        loadedByte table file i j 0 = loadedByte table' file i j 0 := by
      intro table table'
      obtain ⟨bmp, rest, loads, loaded⟩ :=
        loads_of_accepted accepted size (blank table) fun _ => 0
      obtain ⟨bmp', rest', loads', loaded'⟩ :=
        loads_of_accepted accepted size (blank table') fun _ => 0
      have first : 0 < 3 := by decide
      have there := whole.component row column first
      have left := loaded.array_of_pixel accepted.readable row column first there
      have right := loaded'.array_of_pixel accepted.readable row column first there
      rw [same _ _ _ _ _ _ _ _ loads loads'] at left
      exact Option.some_inj.mp (left.symm.trans right)
    rcases (loadedByte_determined_iff accepted.readable (show 0 < 3 by decide)).mp determined with
      byte | color | zero
    · exact absurd byte notByte
    · exact absurd color packed
    · exact zero
  · intro kinds fresh fresh' heap heap' bmp bmp' rest rest' loads loads'
    obtain ⟨_, _, loaded⟩ := loaded_of_load accepted.whole loads
    obtain ⟨_, _, loaded'⟩ := loaded_of_load accepted.whole loads'
    refine array_ext loaded.length loaded'.length fun i row j column c within => ?_
    have there := whole.component row column within
    rw [loaded.array_of_pixel accepted.readable row column within there,
      loaded'.array_of_pixel accepted.readable row column within there]
    have determined := (loadedByte_determined_iff accepted.readable within (i := i) (j := j)).mpr
      (kinds.imp_right fun rest => rest.imp_right fun zero => zero i row j column)
    rw [determined]

/-- A line of seven pixels 1 behind a pixel 0 is loaded alike from every memory, and a line
of eight pixels 1 is not. -/
theorem load_determined_iff_bitLine :
    (∀ fresh fresh' heap heap' bmp bmp' rest rest', load fresh heap (bitLine 127) = .ok bmp rest →
      load fresh' heap' (bitLine 127) = .ok bmp' rest' → bmp.array = bmp'.array) ∧
    ¬ ∀ fresh fresh' heap heap' bmp bmp' rest rest', load fresh heap (bitLine 255) = .ok bmp rest →
      load fresh' heap' (bitLine 255) = .ok bmp' rest' → bmp.array = bmp'.array :=
  ⟨(load_determined_iff (bitLine_accepted 127) (bitLine_size 127) (by decide)).mpr (by decide),
    fun same => absurd ((load_determined_iff (bitLine_accepted 255) (bitLine_size 255)
      (by decide)).mp same) (by decide)⟩

end Contents

end CcsBmpObject

end DownSample
