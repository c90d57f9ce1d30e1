import DownSample.Bitmap.Write
import DownSample.TestBench.Catapult

/-! # From a bitmap file to the reduced picture

The whole program of the Catapult testbench: it loads the bitmap file, feeds the red bytes
of its top left 480 by 752 pixels and drives the block. The lines of a file are stored from
the bottom up, and the accessors count them from the top
(`DownSample.accessors_of_load`). At 8 and 24 bits a pixel, what the program leaves in the
output channel is a function of the bytes of the file (`DownSample.mainFromFile_reduces`).
-/

namespace DownSample

open Imperative CcsBmpObject

/-- What stops the program: the bitmap or the block. -/
inductive MainFault where
  | bitmap (fault : BmpFault)
  | block (fault : Fault)
deriving DecidableEq, Repr

/-- The part of a loaded object that `red` looks at. -/
def CcsBmpObject.toBmpFile (bmp : CcsBmpObject)
    (loaded : bmp.array.length = 3 * (bmp.infoheader.height.toNat * bmp.infoheader.width.toNat)) :
    CcsBmpFile where
  height := bmp.infoheader.height
  width := bmp.infoheader.width
  array := bmp.array
  loaded := loaded

/-- `CCS_MAIN` up to the end of the `go` loop, on the contents of the bitmap file. -/
def mainFromFile (charSigned : Bool) (fresh : CcsBmpObject) (heap : ℕ → BitVec 8) (file : File)
    (s : Statics) : Except MainFault (AcChannel Uint8) :=
  match loads : load fresh heap file with
  | .ok bmp _ =>
      match ccsMain charSigned (bmp.toBmpFile (length_of_load loads)) s with
      | .ok dout => .ok dout
      | .error fault => .error (.block fault)
  | .error fault _ => .error (.bitmap fault)

namespace CcsBmpFile

variable (src : CcsBmpFile)

/-- The index that `blue` looks up. -/
def blueIndex (row column : BitVec 32) : BitVec 32 :=
  3 * ((src.rows - row - 1) * src.columns + column)

/-- The byte of the array at an index. -/
def lookup (index : BitVec 32) : Except Fault (BitVec 8) :=
  match src.array[index.toNat]? with
  | some byte => .ok byte
  | none => .error (.bmpOutOfRange index.toNat)

/-- `blue(row, column)`. -/
def blue (row column : BitVec 32) : Except Fault (BitVec 8) := src.lookup (src.blueIndex row column)

/-- `green(row, column)`. -/
def green (row column : BitVec 32) : Except Fault (BitVec 8) :=
  src.lookup (src.blueIndex row column + 1)

/-- `blue(row, column)` looks up the first byte of a pixel. -/
theorem blue_eq_lookup (row column : BitVec 32) :
    src.blue row column = src.lookup (src.blueIndex row column + BitVec.ofNat 32 0) := by
  rw [blue, BitVec.add_zero]

/-- `red(row, column)` looks up the last byte of a pixel. -/
theorem red_eq_lookup (row column : BitVec 32) :
    src.red row column = src.lookup (src.blueIndex row column + BitVec.ofNat 32 2) := rfl

variable {src}

/-- The three bytes of a pixel are looked up at its place from the top left. -/
theorem lookup_component (small : 3 * (src.height.toNat * src.width.toNat) < 2 ^ 32)
    {row column : BitVec 32} (inRows : row.toNat < src.height.toNat)
    (inColumns : column.toNat < src.width.toNat) {c : ℕ} (within : c < 3) :
    src.lookup (src.blueIndex row column + BitVec.ofNat 32 c) =
      .ok (src.array.getD
        (3 * ((src.height.toNat - 1 - row.toNat) * src.width.toNat + column.toNat) + c) 0) := by
  have inside := redIndex_lt inRows inColumns
  have red := redIndex_toNat small inRows inColumns
  have index : (src.blueIndex row column + BitVec.ofNat 32 c).toNat =
      3 * ((src.height.toNat - 1 - row.toNat) * src.width.toNat + column.toNat) + c := by
    have split : src.redIndex row column = src.blueIndex row column + 2 := rfl
    have two : (2 : BitVec 32).toNat = 2 := rfl
    rw [split, BitVec.toNat_add, two] at red
    rw [BitVec.toNat_add, BitVec.toNat_ofNat]
    omega
  have there : 3 * ((src.height.toNat - 1 - row.toNat) * src.width.toNat + column.toNat) + c <
      src.array.length := by
    rw [src.loaded]
    omega
  rw [lookup, index, List.getElem?_eq_getElem there, List.getD_eq_getElem?_getD,
    List.getElem?_eq_getElem there, Option.getD_some]

end CcsBmpFile

/-- The red byte of a file at a row and a column from the top left. -/
def redOf (file : File) (row column : ℕ) : BitVec 8 :=
  colorInFile file (rowsOf file - 1 - row) column 2

section Main

variable {charSigned : Bool} {fresh : CcsBmpObject} {heap : ℕ → BitVec 8} {file : File}
  {s : Statics}

theorem mainFromFile_of_ok {bmp : CcsBmpObject} {rest : File}
    (loads : load fresh heap file = .ok bmp rest) :
    mainFromFile charSigned fresh heap file s =
      match ccsMain charSigned (bmp.toBmpFile (length_of_load loads)) s with
      | .ok dout => .ok dout
      | .error fault => .error (.block fault) := by
  unfold mainFromFile
  split
  · rename_i bmp' rest' loads'
    cases loads.symm.trans loads'
    rfl
  · rename_i fault rest' faults
    cases loads.symm.trans faults

end Main

/-- **The accessors.** In every bitmap that was loaded, `blue`, `green` and `red` return the
bytes of the pixel at a row and a column from the top left; no index wraps around or lies
outside the array. At 8 and 24 bits a pixel, and where the file has the pixel, they are the
colour that the format gives it. -/
theorem accessors_of_load {fresh bmp : CcsBmpObject} {heap : ℕ → BitVec 8} {file rest : File}
    (loads : load fresh heap file = .ok bmp rest) (row column : BitVec 32)
    (inRows : row.toNat < bmp.infoheader.height.toNat)
    (inColumns : column.toNat < bmp.infoheader.width.toNat) :
    ∃ color : ℕ → BitVec 8,
      (bmp.toBmpFile (length_of_load loads)).blue row column = .ok (color 0) ∧
      (bmp.toBmpFile (length_of_load loads)).green row column = .ok (color 1) ∧
      (bmp.toBmpFile (length_of_load loads)).red row column = .ok (color 2) ∧
      ∀ c < 3, bmp.array[3 * ((bmp.infoheader.height.toNat - 1 - row.toNat) *
          bmp.infoheader.width.toNat + column.toNat) + c]? = some (color c) ∧
        (54 ≤ file.length → depthOf file = 8 ∨ depthOf file = 24 →
          lineStart file (rowsOf file - 1 - row.toNat) +
            bytesUpTo (depthOf file) column.toNat c ≤ file.length →
          color c = colorInFile file (rowsOf file - 1 - row.toNat) column.toNat c) := by
  let src := bmp.toBmpFile (length_of_load loads)
  let place (c : ℕ) := 3 * ((bmp.infoheader.height.toNat - 1 - row.toNat) *
    bmp.infoheader.width.toNat + column.toNat) + c
  have component (c : ℕ) (within : c < 3) :
      src.lookup (src.blueIndex row column + BitVec.ofNat 32 c) =
        .ok (bmp.array.getD (place c) 0) :=
    CcsBmpFile.lookup_component (size_of_load loads) inRows inColumns within
  have stored (c : ℕ) (within : c < 3) :
      bmp.array[place c]? = some (bmp.array.getD (place c) 0) := by
    have line : bmp.infoheader.height.toNat - 1 - row.toNat + 1 ≤ bmp.infoheader.height.toNat := by
      omega
    have lines := Nat.mul_le_mul_right bmp.infoheader.width.toNat line
    rw [Nat.succ_mul] at lines
    have inside : place c < bmp.array.length := by
      rw [length_of_load loads]
      change 3 * (_ + column.toNat) + c < _
      omega
    rw [List.getD_eq_getElem?_getD, List.getElem?_eq_getElem inside, Option.getD_some]
  refine ⟨fun c => bmp.array.getD (place c) 0,
    (src.blue_eq_lookup row column).trans (component 0 (by decide)), component 1 (by decide),
    (src.red_eq_lookup row column).trans (component 2 (by decide)),
    fun c within => ⟨stored c within, fun headers bytes there => ?_⟩⟩
  obtain ⟨accepted, _, loaded⟩ := loaded_of_load headers loads
  have rows : bmp.infoheader.height.toNat = rowsOf file := by rw [loaded.infoheader, rowsOf]
  have columns : bmp.infoheader.width.toNat = columnsOf file := by rw [loaded.infoheader, columnsOf]
  have inFile := loaded.array_of_pixel accepted.readable
    (show rowsOf file - 1 - row.toNat < rowsOf file by omega) (columns ▸ inColumns) within there
  rw [loadedByte_of_format _ bytes within, ← columns, ← rows] at inFile
  exact Option.some_inj.mp ((stored c within).symm.trans (rows ▸ inFile))

/-- The red byte of a picture of one pixel. -/
theorem accessors_of_load_onePixel :
    ∃ bmp rest, ∃ loads : load (blank ⟨0, Vector.replicate 1024 0⟩) (fun _ => 0) onePixel =
        .ok bmp rest,
      (bmp.toBmpFile (length_of_load loads)).red 0 0 = .ok 30 := by
  obtain ⟨bmp, rest, loads⟩ :=
    load_returns_onePixel (blank ⟨0, Vector.replicate 1024 0⟩) (fun _ => 0)
  obtain ⟨_, _, loaded⟩ := loaded_of_load onePixel_accepted.whole loads
  have height : bmp.infoheader.height = 1 := by rw [loaded.infoheader]; decide
  have width : bmp.infoheader.width = 1 := by rw [loaded.infoheader]; decide
  obtain ⟨color, -, -, red, colors⟩ :=
    accessors_of_load loads 0 0 (by rw [height]; decide) (by rw [width]; decide)
  have inFile : color 2 = 30 :=
    (colors 2 (by decide)).2 (by decide) (by decide) (by decide)
  exact ⟨bmp, rest, loads, inFile ▸ red⟩

/-- **From the file to the picture.** Of a whole bitmap file of 8 or 24 bits a pixel, with at
least 480 lines of at least 752 pixels, the program leaves the 240 by 376 truncated means of
the red bytes of its top left 480 by 752 pixels, from any statics and any memory, and whether
or not a compiler takes `char` as signed. -/
theorem mainFromFile_reduces (charSigned : Bool) (fresh : CcsBmpObject) (heap : ℕ → BitVec 8)
    (file : File) (s : Statics) (accepted : Accepted file)
    (bytes : depthOf file = 8 ∨ depthOf file = 24)
    (size : 3 * (rowsOf file * columnsOf file) < 2 ^ 32) (whole : Whole file)
    (tall : 480 ≤ rowsOf file) (wide : 752 ≤ columnsOf file) :
    ∃ dout, mainFromFile charSigned fresh heap file s = .ok dout ∧
      dout.ch.length = 240 * 376 ∧
      ∀ i < 240, ∀ j < 376, ∃ value, dout.ch[i * 376 + j]? = some value ∧ value.toNat =
        blockMean (fun row column => (redOf file row column).toNat) i j := by
  obtain ⟨bmp, rest, loads, loaded⟩ := loads_of_accepted accepted size fresh heap
  let src := bmp.toBmpFile (length_of_load loads)
  have rows : src.height.toNat = rowsOf file := by
    change bmp.infoheader.height.toNat = _
    rw [loaded.infoheader, rowsOf]
  have columns : src.width.toNat = columnsOf file := by
    change bmp.infoheader.width.toNat = _
    rw [loaded.infoheader, columnsOf]
  have red {row column : ℕ} (inRows : row < rowsOf file) (inColumns : column < columnsOf file) :
      src.redByte row column = redOf file row column := by
    have below : rowsOf file - 1 - row < rowsOf file := by omega
    have stored := loaded.array_of_pixel accepted.readable below inColumns (by decide)
      (whole.component below inColumns (show 2 < 3 by decide))
    rw [loadedByte_of_format _ bytes (by decide)] at stored
    rw [CcsBmpFile.redByte, rows, columns, List.getD_eq_getElem?_getD]
    exact congrArg (Option.getD · 0) stored
  obtain ⟨din, c, feeds, drives, written⟩ := feedAndDrive
    (fun _ line _ column => fetchRed_inside charSigned (rows ▸ tall) (columns ▸ wide)
      (by rw [rows, columns]; exact size) line column) s
  have main : ccsMain charSigned src s = .ok c.downImage := by
    rw [ccsMain, feeds, andThen_ok, drives, andThen_ok]
  refine ⟨c.downImage, ?_, ?_, fun i row j column => ?_⟩
  · rw [mainFromFile_of_ok loads]
    change (match ccsMain charSigned src s with | .ok dout => _ | .error fault => _) = _
    rw [main]
  · rw [written, length_reduced]
  · obtain ⟨value, stored, mean⟩ := reduced_ofPicture src.redByte row column
    refine ⟨value, written ▸ stored, mean.trans (blockMean_congr ?_ row column)⟩
    intro row line column place
    exact congrArg BitVec.toNat (red (by omega) (by omega))

/-- A picture of the size of a frame, all of whose bytes are 200. -/
def brightObject : CcsBmpObject := ofArray 752 480 (List.replicate (3 * (480 * 752)) 200)

theorem brightObject_intact : Intact brightObject := ⟨rfl, by decide, List.length_replicate⟩

theorem brightFile_whole : Whole (written brightObject 0) := by
  intro i row
  have length : (written brightObject 0).length = 54 + 3 * (480 * 752) := by
    rw [length_written]
    exact congrArg (54 + ·) List.length_replicate
  have width : brightObject.infoheader.width.toNat = 752 := rfl
  have line : bytesTaken 24 752 = 2256 := rfl
  rw [rowsOf_written] at row
  change i < 480 at row
  rw [lineStart_written, depthOf_written, columnsOf_written, length, width, stride_color, line]
  omega

theorem redOf_bright {row column : ℕ} (line : row < 480) (place : column < 752) :
    redOf (written brightObject 0) row column = 200 := by
  have width : brightObject.infoheader.width.toNat = 752 := rfl
  have array : brightObject.array = List.replicate (3 * (480 * 752)) 200 := rfl
  rw [redOf, colorInFile, if_pos (depthOf_written _ _), lineByte, lineStart_written,
    rowsOf_written, width, stride_color, Nat.add_assoc, List.getD_eq_getElem?_getD,
    ← List.getElem?_drop, drop_headers, array, List.getElem?_replicate, if_pos]
  · rfl
  · change (480 - 1 - row) * (4 * ((3 * 752 + 3) / 4)) + (3 * column + 2) < _
    omega

/-- A bright picture that was written is loaded and reduced; its last mean is 200. -/
theorem mainFromFile_reduces_bright :
    ∃ dout, mainFromFile true brightObject (fun _ => 0) (written brightObject 0) Statics.zero =
        .ok dout ∧ dout.ch.length = 240 * 376 ∧
      ∃ value, dout.ch[239 * 376 + 375]? = some value ∧ value.toNat = 200 := by
  have rows : rowsOf (written brightObject 0) = 480 := rowsOf_written _ _
  have columns : columnsOf (written brightObject 0) = 752 := columnsOf_written _ _
  obtain ⟨dout, returns, length, values⟩ := mainFromFile_reduces true brightObject (fun _ => 0)
    (written brightObject 0) Statics.zero (accepted_written brightObject_intact)
    (Or.inr (depthOf_written _ _)) (by rw [rows, columns]; decide) brightFile_whole
    (by rw [rows]) (by rw [columns])
  obtain ⟨value, stored, mean⟩ := values 239 (by decide) 375 (by decide)
  have bright : blockMean (fun row column => (redOf (written brightObject 0) row column).toNat)
      239 375 = blockMean (fun _ _ => 200) 239 375 :=
    blockMean_congr (fun row line column place => by rw [redOf_bright line place]; rfl)
      (by decide) (by decide)
  exact ⟨dout, returns, length, value, stored, mean.trans (bright.trans (by decide))⟩

end DownSample
