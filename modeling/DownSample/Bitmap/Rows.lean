import DownSample.Bitmap.Pixels

/-! # Reading the lines of a bitmap file

`DownSample.readarray` stores three bytes for every pixel, one line of the file after the
other. The lines of the file are padded to blocks of four bytes and the array is not. The
array was allocated by the constructor for a size that may have wrapped around; the lines
can be read exactly when it has room for them (`DownSample.readarray_outcome`).
-/

namespace DownSample

open Imperative

/-- `index[offset] = value`. -/
def storeIndex (offset : ℕ) (value : BitVec 8) : EStateM BmpFault Loading Unit := fun s =>
  if s.index + offset < s.bmp.array.length then
    .ok () { s with bmp := { s.bmp with array := s.bmp.array.set (s.index + offset) value } }
  else .error (.arrayOutOfRange (s.index + offset)) s

/-- `*(p + component)`, where `p` points to a colour of the table. -/
def readColor (colortable : CcsBmpColorTable) (pixel : BitVec 32) (component : ℕ) :
    EStateM BmpFault Loading (BitVec 8) := fun s =>
  match colortable.bgr pixel component with
  | .ok byte => .ok byte s
  | .error fault => .error fault s

/-- One iteration of the inner loop of `ccs_bmpfile::readarray`. -/
def readarrayPixel (colortable : Option CcsBmpColorTable) : EStateM BmpFault Loading Unit :=
  match colortable with
  | some colortable => do
    let p ← getpixel
    storeIndex 2 (← readColor colortable p 2)
    storeIndex 1 (← readColor colortable p 1)
    storeIndex 0 (← readColor colortable p 0)
    modify fun s => { s with index := s.index + 3 }
  | none => do
    let p ← getpixel
    storeIndex 2 ((p &&& 255).setWidth 8)
    let p := p >>> 8
    storeIndex 1 ((p &&& 255).setWidth 8)
    let p := p >>> 8
    storeIndex 0 ((p &&& 255).setWidth 8)
    modify fun s => { s with index := s.index + 3 }

/-- One iteration of the outer loop of `ccs_bmpfile::readarray`. What is left of the last
block of a line is dropped at the start of the next. -/
def readarrayLine (colortable : Option CcsBmpColorTable) (width : BitVec 32) :
    EStateM BmpFault Loading Unit := do
  modify fun s => { s with bmp := { s.bmp with bytesleft := 0, bitsleft := 0 } }
  forLoop width.toNat width.isLt (fun _ => readarrayPixel colortable) (0 : BitVec 32)

/-- `ccs_bmpfile::readarray`. -/
def readarray (colortable : Option CcsBmpColorTable) : EStateM BmpFault Loading Unit := do
  modify fun s => { s with index := 0 }
  let infoheader := (← get).bmp.infoheader
  forLoop infoheader.height.toNat infoheader.height.isLt
    (fun _ => readarrayLine colortable infoheader.width) (0 : BitVec 32)

/-! ## One pixel -/

/-- The byte that is stored for a component of a pixel. -/
def component (colortable : Option CcsBmpColorTable) (pixel : BitVec 32) (c : ℕ) :
    Except BmpFault (BitVec 8) :=
  match colortable with
  | some colortable => colortable.bgr pixel c
  | none => .ok ((pixel >>> (8 * (2 - c))).setWidth 8)

/-- The object with a byte of its array set. -/
def Loading.set (s : Loading) (place : ℕ) (value : BitVec 8) : Loading :=
  { s with bmp := { s.bmp with array := s.bmp.array.set place value } }

@[simp] theorem Loading.set_index (s : Loading) (place : ℕ) (value : BitVec 8) :
    (s.set place value).index = s.index := rfl

@[simp] theorem Loading.length_set (s : Loading) (place : ℕ) (value : BitVec 8) :
    (s.set place value).bmp.array.length = s.bmp.array.length := List.length_set

/-- The object after a colour has been stored, with the pointer behind it. -/
def Loading.stored (s : Loading) (color : ℕ → BitVec 8) : Loading :=
  { ((s.set (s.index + 2) (color 2)).set (s.index + 1) (color 1)).set (s.index + 0) (color 0) with
    index := s.index + 3 }

theorem storeIndex_of_lt {s : Loading} {offset : ℕ} {value : BitVec 8}
    (inside : s.index + offset < s.bmp.array.length) :
    storeIndex offset value s = .ok () (s.set (s.index + offset) value) :=
  if_pos inside

theorem readColor_of_ok {colortable : CcsBmpColorTable} {pixel : BitVec 32} {c : ℕ}
    {byte : BitVec 8} (reads : colortable.bgr pixel c = .ok byte) :
    readColor colortable pixel c = pure byte := by
  funext s
  rw [readColor, reads]
  rfl

section Pixel

variable {colortable : Option CcsBmpColorTable} {pixel : BitVec 32} {color : ℕ → BitVec 8}
  {s s' : Loading}

/-- The stores of an iteration, of the bytes that a pixel has. -/
private def storeColor (color : ℕ → BitVec 8) : EStateM BmpFault Loading Unit := do
  storeIndex 2 (color 2)
  storeIndex 1 (color 1)
  storeIndex 0 (color 0)
  modify fun s => { s with index := s.index + 3 }

private theorem readarrayPixel_eq (gets : getpixel s = .ok pixel s')
    (components : ∀ c < 3, component colortable pixel c = .ok (color c)) :
    readarrayPixel colortable s = storeColor color s' := by
  have third := components 2 (by omega)
  have second := components 1 (by omega)
  have first := components 0 (by omega)
  cases colortable with
  | some colortable =>
      have stores : (do
          storeIndex 2 (← readColor colortable pixel 2)
          storeIndex 1 (← readColor colortable pixel 1)
          storeIndex 0 (← readColor colortable pixel 0)
          modify fun s => { s with index := s.index + 3 }) = storeColor color := by
        rw [readColor_of_ok third, readColor_of_ok second, readColor_of_ok first]
        simp only [pure_bind, storeColor]
      exact (bind_of_ok gets).trans (congrFun stores s')
  | none =>
      have low : ((pixel >>> 8 >>> 8) &&& 255).setWidth 8 = color 0 := by
        rw [and_low, ← BitVec.shiftRight_add]
        exact Except.ok.inj first
      have middle : ((pixel >>> 8) &&& 255).setWidth 8 = color 1 :=
        (and_low _).trans (Except.ok.inj second)
      have high : (pixel &&& 255).setWidth 8 = color 2 :=
        (and_low _).trans (Except.ok.inj third)
      have stores : (do
          storeIndex 2 ((pixel &&& 255).setWidth 8)
          storeIndex 1 ((pixel >>> 8 &&& 255).setWidth 8)
          storeIndex 0 ((pixel >>> 8 >>> 8 &&& 255).setWidth 8)
          modify fun s => { s with index := s.index + 3 }) = storeColor color := by
        rw [low, middle, high, storeColor]
      exact (bind_of_ok gets).trans (congrFun stores s')

/-- Three bytes are stored for a pixel where they fit. -/
theorem readarrayPixel_of_lt (gets : getpixel s = .ok pixel s')
    (components : ∀ c < 3, component colortable pixel c = .ok (color c))
    (inside : s'.index + 2 < s'.bmp.array.length) :
    readarrayPixel colortable s = .ok () (s'.stored color) := by
  rw [readarrayPixel_eq gets components]
  let s₁ := s'.set (s'.index + 2) (color 2)
  let s₂ := s₁.set (s'.index + 1) (color 1)
  have third : storeIndex 2 (color 2) s' = .ok () s₁ := storeIndex_of_lt inside
  have second : storeIndex 1 (color 1) s₁ = .ok () s₂ := storeIndex_of_lt (by
    rw [Loading.set_index, Loading.length_set]
    omega)
  have first : storeIndex 0 (color 0) s₂ = .ok () (s₂.set (s'.index + 0) (color 0)) :=
    storeIndex_of_lt (by
      rw [Loading.set_index, Loading.set_index, Loading.length_set, Loading.length_set]
      omega)
  exact (bind_of_ok third).trans ((bind_of_ok second).trans (bind_of_ok first))

/-- Where there is no room for a pixel, its third byte is the first that is out of range. -/
theorem readarrayPixel_of_le (gets : getpixel s = .ok pixel s')
    (components : ∀ c < 3, component colortable pixel c = .ok (color c))
    (outside : s'.bmp.array.length ≤ s'.index + 2) :
    readarrayPixel colortable s = .error (.arrayOutOfRange (s'.index + 2)) s' := by
  rw [readarrayPixel_eq gets components]
  exact bind_of_error (if_neg (Nat.not_lt.mpr outside))

end Pixel

/-! ## Colours -/

/-- The byte that is stored for component `c` of pixel `j` of a line: a byte of the line, or
of the entry of the table at what `getpixel` returns. -/
def colorAt (colortable : Option CcsBmpColorTable) (depth : ℕ) (byteAt : ℕ → BitVec 8)
    (j c : ℕ) : BitVec 8 :=
  match colortable with
  | some colortable => (colortable.array[4 * (getpixelAt depth byteAt j).toNat + c]?).getD 0
  | none => byteAt (3 * j + c)

/-- A table is used at every depth but 24. -/
def Tabled (depth : ℕ) (colortable : Option CcsBmpColorTable) : Prop :=
  colortable = none ↔ depth = 24

/-- The entry of a pixel below 256 is in the table. -/
theorem bgr_of_lt (colortable : CcsBmpColorTable) {pixel : BitVec 32} {c : ℕ}
    (small : pixel.toNat < 256) (within : c < 3) :
    colortable.bgr pixel c = .ok ((colortable.array[4 * pixel.toNat + c]?).getD 0) := by
  have place : (pixel * 4).toNat = 4 * pixel.toNat := by
    have four : (4 : BitVec 32).toNat = 4 := rfl
    rw [BitVec.toNat_mul, four, Nat.mod_eq_of_lt (by omega), Nat.mul_comm]
  have inside : 4 * pixel.toNat + c < 1024 := by omega
  rw [CcsBmpColorTable.bgr, place, dif_pos inside, Vector.getElem?_eq_getElem inside,
    Option.getD_some]

theorem getpixelAt_lt {depth : ℕ} (packed : depth ≠ 24) (byteAt : ℕ → BitVec 8) (j : ℕ) :
    (getpixelAt depth byteAt j).toNat < 256 := by
  rw [getpixelAt, if_neg packed]
  split
  · rw [BitVec.toNat_setWidth]
    exact lt_of_le_of_lt (Nat.mod_le _ _) (BitVec.isLt _)
  · exact Nat.succ_pos 255

/-- The bytes of a pixel of 24 bits. -/
private theorem byte_of_pixel (high middle low : BitVec 8) {c : ℕ} (within : c < 3) :
    (((high.setWidth 32 <<< 16) ||| (middle.setWidth 32 <<< 8) ||| low.setWidth 32) >>>
      (8 * (2 - c))).setWidth 8 = if c = 0 then high else if c = 1 then middle else low := by
  apply BitVec.eq_of_getLsbD_eq
  intro i inside
  have beyond (byte : BitVec 8) (k : ℕ) (above : 8 ≤ k) : byte.getLsbD k = false :=
    BitVec.getLsbD_of_ge byte k above
  have low32 : i < 32 := by omega
  have middle32 : 8 + i < 32 := by omega
  have high32 : 16 + i < 32 := by omega
  obtain rfl | rfl | rfl : c = 0 ∨ c = 1 ∨ c = 2 := by omega
  · simp [inside, low32, high32, beyond middle (16 + i - 8) (by omega),
      beyond low (16 + i) (by omega)]
  · have below : 8 + i < 16 := by omega
    simp [inside, low32, middle32, below]
  · simp [inside]

private theorem component_color (byteAt : ℕ → BitVec 8) (j : ℕ) {c : ℕ} (within : c < 3) :
    ((getpixelAt 24 byteAt j) >>> (8 * (2 - c))).setWidth 8 = byteAt (3 * j + c) := by
  rw [getpixelAt, if_pos rfl, byte_of_pixel _ _ _ within]
  obtain rfl | rfl | rfl : c = 0 ∨ c = 1 ∨ c = 2 := by omega
  all_goals rfl

/-- Every component of a pixel of a line can be read, whatever is in the line. -/
theorem component_getpixelAt {depth : ℕ} {colortable : Option CcsBmpColorTable}
    (tabled : Tabled depth colortable) (byteAt : ℕ → BitVec 8) (j : ℕ) {c : ℕ} (within : c < 3) :
    component colortable (getpixelAt depth byteAt j) c =
      .ok (colorAt colortable depth byteAt j c) := by
  cases colortable with
  | none =>
      obtain rfl := tabled.mp rfl
      exact congrArg Except.ok (component_color byteAt j within)
  | some colortable =>
      have packed : depth ≠ 24 := fun color => nomatch tabled.mpr color
      exact bgr_of_lt colortable (getpixelAt_lt packed byteAt j) within

/-- The number of bytes of a line up to those that component `c` of pixel `j` is in. -/
def bytesUpTo (depth j c : ℕ) : ℕ := if depth = 24 then 3 * j + c + 1 else bytesTaken depth (j + 1)

theorem bytesUpTo_le {depth width j c : ℕ} (column : j < width) (within : c < 3) :
    bytesUpTo depth j c ≤ bytesTaken depth width := by
  have bits : depth * (j + 1) ≤ depth * width := Nat.mul_le_mul_left depth column
  unfold bytesUpTo bytesTaken
  split
  · rename_i color
    subst color
    omega
  · omega

/-- A component of a colour depends on the bytes of the line up to its own. -/
theorem colorAt_congr {depth : ℕ} {colortable : Option CcsBmpColorTable}
    (readable : Readable depth) (tabled : Tabled depth colortable) {byteAt byteAt' : ℕ → BitVec 8}
    {j c : ℕ} (same : ∀ k < bytesUpTo depth j c, byteAt k = byteAt' k) :
    colorAt colortable depth byteAt j c = colorAt colortable depth byteAt' j c := by
  have next : depth * (j + 1) = depth * j + depth := Nat.mul_succ depth j
  unfold bytesUpTo at same
  cases colortable with
  | none =>
      rw [if_pos (tabled.mp rfl)] at same
      exact same _ (by omega)
  | some colortable =>
      have packed : depth ≠ 24 := fun color => nomatch tabled.mpr color
      have positive : 0 < depth := by
        unfold Readable at readable
        omega
      rw [if_neg packed, bytesTaken] at same
      have pixel : getpixelAt depth byteAt j = getpixelAt depth byteAt' j := by
        rw [getpixelAt, getpixelAt, if_neg packed, if_neg packed, same (depth * j / 8) (by omega)]
      rw [colorAt, colorAt, pixel]

/-! ## Lines -/

/-- The bytes that a line takes in the file, with its padding. -/
def stride (depth width : ℕ) : ℕ := 4 * ((bytesTaken depth width + 3) / 4)

/-- What byte `m` of the array can be after the lines from an offset of a file on were read
into it. -/
def ReadFrom (colortable : Option CcsBmpColorTable) (depth width : ℕ) (file : File)
    (start m : ℕ) (byte : BitVec 8) : Prop :=
  ∃ byteAt, Agrees file (start + m / 3 / width * stride depth width) byteAt ∧
    byte = colorAt colortable depth byteAt (m / 3 % width) (m % 3)

section ReadFrom

variable {colortable : Option CcsBmpColorTable} {depth width : ℕ} {file : File} {start i j c : ℕ}
  {byte : BitVec 8}

theorem readFrom_iff (column : j < width) (within : c < 3) :
    ReadFrom colortable depth width file start (3 * (i * width + j) + c) byte ↔
      ∃ byteAt, Agrees file (start + i * stride depth width) byteAt ∧
        byte = colorAt colortable depth byteAt j c := by
  have positive : 0 < width := by omega
  have pixel : (3 * (i * width + j) + c) / 3 = i * width + j := by omega
  have part : (3 * (i * width + j) + c) % 3 = c := by omega
  have line : (i * width + j) / width = i := by
    rw [Nat.mul_comm, Nat.mul_add_div positive, Nat.div_eq_of_lt column, Nat.add_zero]
  have place : (i * width + j) % width = j := by
    rw [Nat.mul_comm, Nat.mul_add_mod, Nat.mod_eq_of_lt column]
  rw [ReadFrom, pixel, part, line, place]

/-- A component whose bytes are in the file is the one that they select. -/
theorem ReadFrom.inside
    (reads : ReadFrom colortable depth width file start (3 * (i * width + j) + c) byte)
    (readable : Readable depth) (tabled : Tabled depth colortable)
    (column : j < width) (within : c < 3)
    (there : start + i * stride depth width + bytesUpTo depth j c ≤ file.length) :
    byte = colorAt colortable depth
      (fun k => file.getD (start + i * stride depth width + k) 0) j c := by
  obtain ⟨byteAt, agrees, rfl⟩ := (readFrom_iff column within).mp reads
  exact colorAt_congr readable tabled fun k below => agrees k (by omega)

end ReadFrom

/-- The members that reading the lines leaves alone. -/
def CcsBmpObject.headers (bmp : CcsBmpObject) :
    CcsBmpHeader × CcsBmpInfoHeader × CcsBmpColorTable :=
  (bmp.header, bmp.infoheader, bmp.colortable)

/-- The first `t` pixels are in the array. -/
structure Filled (expected : ℕ → BitVec 8 → Prop) (length t : ℕ) (s : Loading) : Prop where
  index : s.index = 3 * t
  allocated : s.bmp.array.length = length
  room : 3 * t ≤ length
  array : ∀ m < 3 * t, ∃ byte, s.bmp.array[m]? = some byte ∧ expected m byte

/-- One more pixel. -/
theorem Filled.stored {expected : ℕ → BitVec 8 → Prop} {length t : ℕ} {s : Loading}
    (filled : Filled expected length t s) {color : ℕ → BitVec 8}
    (colors : ∀ c < 3, expected (3 * t + c) (color c)) (room : 3 * (t + 1) ≤ length) :
    Filled expected length (t + 1) (s.stored color) where
  index := by
    change s.index + 3 = _
    rw [filled.index]
    omega
  allocated := by
    change (((s.bmp.array.set _ _).set _ _).set _ _).length = _
    rw [List.length_set, List.length_set, List.length_set, filled.allocated]
  room := room
  array m below := by
    change ∃ byte, (((s.bmp.array.set (s.index + 2) (color 2)).set (s.index + 1) (color 1)).set
      (s.index + 0) (color 0))[m]? = some byte ∧ _
    have inside : m < s.bmp.array.length := by
      rw [filled.allocated]
      omega
    rw [filled.index]
    simp only [List.getElem?_set, List.length_set]
    by_cases first : 3 * t + 0 = m
    · rw [if_pos first, if_pos (by omega)]
      exact ⟨_, rfl, first ▸ colors 0 (by omega)⟩
    · rw [if_neg first]
      by_cases second : 3 * t + 1 = m
      · rw [if_pos second, if_pos (by omega)]
        exact ⟨_, rfl, second ▸ colors 1 (by omega)⟩
      · rw [if_neg second]
        by_cases third : 3 * t + 2 = m
        · rw [if_pos third, if_pos (by omega)]
          exact ⟨_, rfl, third ▸ colors 2 (by omega)⟩
        · rw [if_neg third]
          exact filled.array m (by omega)

/-- A line starts with nothing left of the block and the byte before. -/
theorem LineAt.first {file : File} {start depth : ℕ} {s : Loading} (fp : s.fp = file.drop start)
    (bytesleft : s.bmp.bytesleft = 0) (bitsleft : s.bmp.bitsleft = 0) :
    LineAt file start depth 0 s := by
  have taken : bytesTaken depth 0 = 0 := by
    unfold bytesTaken
    omega
  exact {
    block := by
      rw [taken]
      exact ⟨fp, bytesleft, fun k below => absurd below (Nat.not_lt_zero k)⟩
    bitsleft := by
      rw [taken]
      exact bitsleft
    spent := fun inside => absurd (Nat.zero_mod 8) (Nat.mul_zero depth ▸ inside) }

theorem LineAt.stored {file : File} {start depth j : ℕ} {s : Loading}
    (line : LineAt file start depth j s) (color : ℕ → BitVec 8) :
    LineAt file start depth j (s.stored color) where
  block := ⟨line.block.fp, line.block.bytesleft, line.block.bytes⟩
  bitsleft := line.bitsleft
  spent := line.spent

/-- The outcome of storing the first `total` pixels into an array: a state as described, or
a byte outside the array, for which `total` pixels are too many. -/
def Outcome (length total : ℕ) (holds : Loading → Prop)
    (result : EStateM.Result BmpFault Loading Unit) : Prop :=
  (∃ s', result = .ok () s' ∧ holds s') ∨
    ∃ fault s', result = .error fault s' ∧ (∃ place, fault = .arrayOutOfRange place) ∧
      length < 3 * total

theorem Outcome.imp {length total : ℕ} {holds holds' : Loading → Prop}
    {result : EStateM.Result BmpFault Loading Unit} (outcome : Outcome length total holds result)
    (implies : ∀ s, holds s → holds' s) : Outcome length total holds' result := by
  rcases outcome with ⟨s', returns, held⟩ | faults
  · exact Or.inl ⟨s', returns, implies s' held⟩
  · exact Or.inr faults

/-- The outcome of iterations that each store some of the pixels. -/
theorem Outcome.iterations {length : ℕ} {body : ℕ → EStateM BmpFault Loading Unit} {s : Loading}
    (total : ℕ → ℕ) (invariant : ℕ → Loading → Prop) (count : ℕ)
    (more : ∀ i < count, total (i + 1) ≤ total count)
    (step : ∀ i < count, ∀ s, invariant i s →
      Outcome length (total (i + 1)) (invariant (i + 1)) (body i s))
    (start : invariant 0 s) :
    Outcome length (total count) (invariant count) (Imperative.iterations body count s) := by
  refine iterations_outcome invariant
    (fun fault _ => (∃ place, fault = BmpFault.arrayOutOfRange place) ∧ length < 3 * total count)
    count (fun i below s held => ?_) start
  rcases step i below s held with stored | ⟨fault, s', faults, out, short⟩
  · exact Or.inl stored
  · exact Or.inr ⟨fault, s', faults, out,
      lt_of_lt_of_le short (Nat.mul_le_mul_left 3 (more i below))⟩

/-- A depth that can be read, with a table where the depth needs one. -/
structure Format (depth width : ℕ) (colortable : Option CcsBmpColorTable)
    (infoheader : CcsBmpInfoHeader) : Prop where
  readable : Readable depth
  tabled : Tabled depth colortable
  bitcount : infoheader.bitcount = BitVec.ofNat 16 depth
  width : infoheader.width.toNat = width

section Lines

variable {file : File} {start depth width length : ℕ} {colortable : Option CcsBmpColorTable}
  {headers : CcsBmpHeader × CcsBmpInfoHeader × CcsBmpColorTable} {s : Loading}

/-- **One pixel.** A pixel is stored, or there is no room for it. -/
private theorem readarrayPixel_outcome {i j : ℕ}
    (format : Format depth width colortable headers.2.1) (column : j < width)
    (line : LineAt file (start + i * stride depth width) depth j s)
    (filled : Filled (ReadFrom colortable depth width file start) length (i * width + j) s)
    (same : s.bmp.headers = headers) :
    Outcome length (i * width + (j + 1))
      (fun s' => LineAt file (start + i * stride depth width) depth (j + 1) s' ∧
        Filled (ReadFrom colortable depth width file start) length (i * width + (j + 1)) s' ∧
        s'.bmp.headers = headers) (readarrayPixel colortable s) := by
  have bitcount : s.bmp.infoheader.bitcount = BitVec.ofNat 16 depth := by
    have infoheader : s.bmp.infoheader = headers.2.1 := congrArg (fun members => members.2.1) same
    rw [infoheader, format.bitcount]
  obtain ⟨byteAt, s', agrees, gets, next, kept⟩ := getpixel_line format.readable line bitcount
  have index : s'.index = s.index := congrArg (fun members => members.2.2.2.2) kept
  have array : s'.bmp.array = s.bmp.array := congrArg (fun members => members.2.2.2.1) kept
  have sameHeaders : s'.bmp.headers = s.bmp.headers :=
    congrArg (fun members => (members.1, members.2.1, members.2.2.1)) kept
  have filled' : Filled (ReadFrom colortable depth width file start) length (i * width + j) s' :=
    ⟨index.trans filled.index, by rw [array, filled.allocated], filled.room,
      by rw [array]; exact filled.array⟩
  have components (c : ℕ) (within : c < 3) := component_getpixelAt format.tabled byteAt j within
  have place : s'.index + 3 = 3 * (i * width + (j + 1)) := by
    rw [filled'.index]
    omega
  by_cases room : 3 * (i * width + (j + 1)) ≤ length
  · have inside : s'.index + 2 < s'.bmp.array.length := by
      rw [filled'.allocated]
      omega
    exact Or.inl ⟨_, readarrayPixel_of_lt gets components inside, next.stored _,
      filled'.stored (fun c within => (readFrom_iff column within).mpr ⟨byteAt, agrees, rfl⟩) room,
      sameHeaders.trans same⟩
  · have outside : s'.bmp.array.length ≤ s'.index + 2 := by
      rw [filled'.allocated]
      omega
    exact Or.inr ⟨_, _, readarrayPixel_of_le gets components outside, ⟨_, rfl⟩, by omega⟩

/-- **One line.** The line is stored and the file is at the start of the next, or there is
no room for the line. -/
theorem readarrayLine_outcome {i : ℕ} (format : Format depth width colortable headers.2.1)
    (fp : s.fp = file.drop (start + i * stride depth width))
    (filled : Filled (ReadFrom colortable depth width file start) length (i * width) s)
    (same : s.bmp.headers = headers) :
    Outcome length ((i + 1) * width)
      (fun s' => s'.fp = file.drop (start + (i + 1) * stride depth width) ∧
        Filled (ReadFrom colortable depth width file start) length ((i + 1) * width) s' ∧
        s'.bmp.headers = headers) (readarrayLine colortable headers.2.1.width s) := by
  let s₀ : Loading := { s with bmp := { s.bmp with bytesleft := 0, bitsleft := 0 } }
  have rows : (i + 1) * width = i * width + width := Nat.succ_mul i width
  have first : LineAt file (start + i * stride depth width) depth 0 s₀ := .first fp rfl rfl
  have loop : readarrayLine colortable headers.2.1.width s =
      iterations (fun _ => readarrayPixel colortable) width s₀ := by
    refine (bind_of_ok rfl).trans ?_
    rw [forLoop_eq_iterations, format.width]
  rw [loop, rows]
  refine (Outcome.iterations (fun j => i * width + j)
    (fun j s => LineAt file (start + i * stride depth width) depth j s ∧
      Filled (ReadFrom colortable depth width file start) length (i * width + j) s ∧
      s.bmp.headers = headers) width (fun j column => Nat.add_le_add_left column _)
    (fun j column s held => readarrayPixel_outcome format column held.1 held.2.1 held.2.2)
    ⟨first, ⟨filled.index, filled.allocated, filled.room, filled.array⟩, same⟩).imp ?_
  intro final held
  have padded : bytesTaken depth width + (4 * ((bytesTaken depth width + 3) / 4) -
      bytesTaken depth width) = stride depth width := by
    unfold stride
    omega
  refine ⟨?_, held.2⟩
  rw [held.1.block.fp, Nat.add_assoc, padded, Nat.add_assoc, ← Nat.succ_mul]

/-- **All lines.** Whatever is in the file and wherever it ends, the lines are read if and
only if the array has three bytes for every pixel. The bytes of the array are then those of
the file without the padding of its lines, through the table where there is one. -/
theorem readarray_outcome (format : Format depth width colortable headers.2.1)
    (fp : s.fp = file.drop start) (allocated : s.bmp.array.length = length)
    (same : s.bmp.headers = headers) :
    Outcome length (headers.2.1.height.toNat * width)
      (fun s' => Filled (ReadFrom colortable depth width file start) length
        (headers.2.1.height.toNat * width) s' ∧ s'.bmp.headers = headers)
      (readarray colortable s) := by
  let s₀ : Loading := { s with index := 0 }
  have none : start + 0 * stride depth width = start := by rw [Nat.zero_mul, Nat.add_zero]
  have first : Filled (ReadFrom colortable depth width file start) length (0 * width) s₀ := by
    rw [Nat.zero_mul]
    exact ⟨rfl, allocated, Nat.zero_le _, fun m below => absurd below (Nat.not_lt_zero m)⟩
  have infoheader : s₀.bmp.infoheader = headers.2.1 := congrArg (fun members => members.2.1) same
  have loop : readarray colortable s =
      iterations (fun _ => readarrayLine colortable headers.2.1.width)
        headers.2.1.height.toNat s₀ := by
    refine (bind_of_ok rfl).trans ((bind_of_ok rfl).trans ?_)
    change forLoop s₀.bmp.infoheader.height.toNat _ _ 0 s₀ = _
    rw [forLoop_eq_iterations, infoheader]
  rw [loop]
  refine (Outcome.iterations (fun i => i * width)
    (fun i s => s.fp = file.drop (start + i * stride depth width) ∧
      Filled (ReadFrom colortable depth width file start) length (i * width) s ∧
      s.bmp.headers = headers) _ (fun i row => Nat.mul_le_mul_right width row)
    (fun i row s held => readarrayLine_outcome format held.1 held.2.1 held.2.2)
    ⟨none.symm ▸ fp, first, same⟩).imp fun final held => held.2

end Lines

end DownSample
