import ImplicitPlot.Plot.Word

/-!
# Bitmaps

An image of three kinds of pixels, row by row. The exports are three readings of one list: an index
for each pixel, the three parts of its colour, and a character for each pixel with a line for each
row. Room for the text is asked for beforehand, by its size in bytes, and there is no text if this
size cannot be computed or asked for.
-/

namespace ImplicitPlot

/-- What is known about a pixel. -/
inductive Pixel
  /-- The curve does not meet the pixel. -/
  | empty
  /-- The curve may meet the pixel. -/
  | curve
  /-- Nothing is known. -/
  | incomplete
deriving DecidableEq, Repr

namespace Pixel

/-- The place of a pixel's colour in the palette. -/
def index : Pixel → UInt8
  | empty => 0
  | curve => 1
  | incomplete => 2

/-- The colour of a pixel, by its red, green and blue parts: white, black and yellow. -/
def rgb : Pixel → List UInt8
  | empty => [255, 255, 255]
  | curve => [0, 0, 0]
  | incomplete => [255, 255, 0]

/-- The character of a pixel. -/
def glyph : Pixel → Char
  | empty => '.'
  | curve => 'X'
  | incomplete => '?'

end Pixel

/-- An image, row by row. -/
structure Bitmap where
  width : Nat
  height : Nat
  pixels : Array Pixel
  size_eq : pixels.size = width * height := by simp
deriving DecidableEq, Repr

namespace Bitmap

/-- An image about which nothing is known. -/
def blank (width height : Nat) : Bitmap :=
  ⟨width, height, Array.replicate (width * height) .incomplete, by simp⟩

/-- Sets the pixel at a place in the row-by-row order; a place past the end changes nothing. -/
def set (b : Bitmap) (place : Nat) (p : Pixel) : Bitmap :=
  ⟨b.width, b.height, b.pixels.setIfInBounds place p, by simp [b.size_eq]⟩

/-- The pixel in a column and row of the image. -/
def get? (b : Bitmap) (column row : Nat) : Option Pixel :=
  if column < b.width ∧ row < b.height then b.pixels[row * b.width + column]? else none

/-- The number of pixels of a kind. -/
def count (b : Bitmap) (p : Pixel) : Nat := b.pixels.toList.countP (· = p)

/-- The index of each pixel. -/
def toIndices (b : Bitmap) : List UInt8 := b.pixels.toList.map Pixel.index

/-- The colour of each pixel. -/
def toRgb (b : Bitmap) : List UInt8 := b.pixels.toList.flatMap Pixel.rgb

/-- The pieces of `n` elements that a list consists of. A shorter rest at the end is left out. -/
def chunksExact {β : Type} (n : Nat) (ps : List β) : List (List β) :=
  if 0 < n ∧ n ≤ ps.length then ps.take n :: chunksExact n (ps.drop n) else []
termination_by ps.length
decreasing_by
  rw [List.length_drop]
  omega

/-- The reason why an image has no text. -/
inductive TextError
  /-- The length of a line, with its end, needs more than a word. -/
  | lineOverflow
  /-- The number of characters needs more than a word. -/
  | sizeOverflow
  /-- So many bytes cannot be asked for. -/
  | noRoom
deriving DecidableEq, Repr

/-- The size of an image as text, with a line for each row. -/
def textSize (b : Bitmap) : Except TextError Nat :=
  match Word.sum? b.width 1 with
  | none => .error .lineOverflow
  | some line =>
    match Word.product? line b.height with
    | none => .error .sizeOverflow
    | some size => if size ≤ Word.maxBytes then .ok size else .error .noRoom

/-- The line of text for a row of pixels. -/
def textLine (row : List Pixel) : List Char := row.map Pixel.glyph ++ ['\n']

/-- The image as lines of text. An image without columns has no pixels, and so no lines. -/
def toAscii (b : Bitmap) : Except TextError String := do
  let _size ← b.textSize
  return String.join ((chunksExact (max b.width 1) b.pixels.toList).map fun row ↦
    String.ofList (textLine row))

end Bitmap

end ImplicitPlot
