import Mathlib.Algebra.Group.Nat.Defs
import Goqjs.Pieces

/-!
# The engine's strings

A string of the engine holds 8-bit or 16-bit units. `JS_ToCStringLen2` writes it
as UTF-8 and `JS_NewStringLen` reads UTF-8 into it, each with a branch of its own
for every width. The UTF-8 is a generalised one: an unpaired surrogate is written
and read as three bytes.
-/

namespace Quickjs

open Pieces

abbrev Bytes := List UInt8

/-- UTF-16 code units. -/
abbrev Units := List UInt16

/-- `is_wide_char` tells the two apart; a wide string may hold small units only. -/
inductive Str where
  | narrow (chars : List UInt8)
  | wide (chars : List UInt16)
  deriving DecidableEq

/-- What JavaScript sees of a string: `===` compares these. -/
def Str.units : Str → Units
  | .narrow chars => chars.map (fun c => UInt16.ofNat c.toNat)
  | .wide chars => chars

def isHiSurrogate (c : Nat) : Bool := c >>> 10 == 0xD800 >>> 10

def isLoSurrogate (c : Nat) : Bool := c >>> 10 == 0xDC00 >>> 10

def getHiSurrogate (c : Nat) : Nat := (c >>> 10) - (0x10000 >>> 10) + 0xD800

def getLoSurrogate (c : Nat) : Nat := (c &&& 0x3FF) ||| 0xDC00

def fromSurrogate (hi lo : Nat) : Nat := 65536 + 1024 * (hi &&& 1023) + (lo &&& 1023)

/-- The bytes stored for a code point. -/
def utf8Encode (c : Nat) : Bytes :=
  if c < 0x80 then [.ofNat c]
  else if c < 0x800 then
    [.ofNat (c >>> 6 ||| 0xC0), .ofNat (c &&& 0x3F ||| 0x80)]
  else if c < 0x10000 then
    [.ofNat (c >>> 12 ||| 0xE0), .ofNat (c >>> 6 &&& 0x3F ||| 0x80), .ofNat (c &&& 0x3F ||| 0x80)]
  else if c < 0x110000 then
    [.ofNat (c >>> 18 ||| 0xF0), .ofNat (c >>> 12 &&& 0x3F ||| 0x80),
      .ofNat (c >>> 6 &&& 0x3F ||| 0x80), .ofNat (c &&& 0x3F ||| 0x80)]
  else
    [.ofNat (0xFFFD >>> 12 ||| 0xE0), .ofNat (0xFFFD >>> 6 &&& 0x3F ||| 0x80),
      .ofNat (0xFFFD &&& 0x3F ||| 0x80)]

def within (lower upper : Nat) (b : UInt8) : Bool := lower ≤ b.toNat && b.toNat ≤ upper

/-- The code point and the bytes after it; on an error `0xFFFD`, and only `lead` is consumed.
Past the end of `p` stands a NUL, which is no continuation byte. -/
def utf8Decode (lead : UInt8) (p : Bytes) : Nat × Bytes :=
  let c := lead.toNat
  if c < 0x80 then (c, p)
  else if 0xC2 ≤ c ∧ c ≤ 0xDF then
    match p with
    | p0 :: rest =>
      if within 0x80 0xBF p0 then (((c - 0xC0) <<< 6) + (p0.toNat - 0x80), rest)
      else (0xFFFD, p)
    | _ => (0xFFFD, p)
  else if 0xE0 ≤ c ∧ c ≤ 0xEF then
    let lower := if c = 0xE0 then 0xA0 else 0x80
    match p with
    | p0 :: p1 :: rest =>
      if within lower 0xBF p0 && within 0x80 0xBF p1 then
        (((c - 0xE0) <<< 12) + ((p0.toNat - 0x80) <<< 6) + (p1.toNat - 0x80), rest)
      else (0xFFFD, p)
    | _ => (0xFFFD, p)
  else if 0xF0 ≤ c ∧ c ≤ 0xF4 then
    let lower := if c = 0xF0 then 0x90 else 0x80
    let upper := if c = 0xF4 then 0x8F else 0xBF
    match p with
    | p0 :: p1 :: p2 :: rest =>
      if within lower upper p0 && within 0x80 0xBF p1 && within 0x80 0xBF p2 then
        (((c - 0xF0) <<< 18) + ((p0.toNat - 0x80) <<< 12) + ((p1.toNat - 0x80) <<< 6)
          + (p2.toNat - 0x80), rest)
      else (0xFFFD, p)
    | _ => (0xFFFD, p)
  else (0xFFFD, p)

/-- Decode from a buffer of which `lead :: p` is left. -/
def utf8DecodeLen (lead : UInt8) (p : Bytes) : Nat × Bytes :=
  match p.length + 1 with
  | 1 => if lead.toNat < 0x80 then utf8Decode lead p else (0xFFFD, p)
  | 2 => if lead.toNat < 0xE0 then utf8Decode lead p else (0xFFFD, p)
  | 3 => if lead.toNat < 0xF0 then utf8Decode lead p else (0xFFFD, p)
  | _ => utf8Decode lead p

/-- One turn of the loop of `utf8_scan` and of `utf8_decode_buf16`: the code point, and whether
it stands for an encoding error. -/
def sequenceAt (lead : UInt8) (p : Bytes) : (Nat × Bool) × Bytes :=
  if lead.toNat < 0x80 then ((lead.toNat, false), p)
  else
    let (c, rest) := utf8DecodeLen lead p
    ((c, rest.length == p.length), rest)

theorem length_utf8Decode (lead : UInt8) (p : Bytes) :
    (utf8Decode lead p).2.length ≤ p.length := by
  simp only [utf8Decode]
  repeat' split
  all_goals simp only [List.length_cons]; omega

theorem length_utf8DecodeLen (lead : UInt8) (p : Bytes) :
    (utf8DecodeLen lead p).2.length ≤ p.length := by
  have h := length_utf8Decode lead p
  simp only [utf8DecodeLen]
  repeat' split
  all_goals first | exact h | exact Nat.le_refl _

theorem length_sequenceAt (lead : UInt8) (p : Bytes) :
    (sequenceAt lead p).2.length ≤ p.length := by
  have h := length_utf8DecodeLen lead p
  simp only [sequenceAt]
  split
  · exact Nat.le_refl _
  · exact h

def utf8Cutter : Cutter UInt8 (Nat × Bool) := ⟨sequenceAt, length_sequenceAt⟩

/-- The code points of a buffer. -/
def sequences (buf : Bytes) : List (Nat × Bool) := utf8Cutter.cut buf

/-- The mask that `utf8_scan` returns; no bit set is `UTF8_PLAIN_ASCII`. -/
structure Kind where
  nonAscii : Bool
  has16Bit : Bool
  hasNonBmp1 : Bool
  hasErrors : Bool
  deriving DecidableEq

def plainAscii : Kind := ⟨false, false, false, false⟩

def utf8Scan (buf : Bytes) : Kind :=
  if buf.all (fun b => b.toNat < 0x80) then plainAscii
  else
    { nonAscii := true
      has16Bit := (sequences buf).any (fun s => s.1 > 0xFF)
      hasNonBmp1 := (sequences buf).any (fun s => s.1 > 0xFFFF)
      hasErrors := (sequences buf).any (fun s => s.2) }

/-- For a buffer with no code point above `0xFF`; the byte stored is taken modulo 256. -/
def utf8DecodeBuf8 : Bytes → List UInt8
  | [] => []
  | c :: p =>
    if c.toNat ≥ 0xC0 then
      match p with
      | [] => [.ofNat ((c.toNat <<< 6) + (2 ^ 32 - ((0xC0 <<< 6) + 0x80)))]
      | p0 :: rest =>
        .ofNat ((c.toNat <<< 6) + p0.toNat + (2 ^ 32 - ((0xC0 <<< 6) + 0x80)))
          :: utf8DecodeBuf8 rest
    else c :: utf8DecodeBuf8 p

/-- One 16-bit word, or two for a code point above `0xFFFF`. -/
def wordsOf (c : Nat) : Units :=
  if c > 0xFFFF then [.ofNat (getHiSurrogate c), .ofNat (getLoSurrogate c)] else [.ofNat c]

def utf8DecodeBuf16 (buf : Bytes) : Units :=
  (sequences buf).flatMap (fun s => wordsOf s.1)

/-- `JS_NewStringLen`. -/
def newStringLen (buf : Bytes) : Str :=
  if buf.length ≤ 0 then .narrow []
  else
    match utf8Scan buf with
    | ⟨false, false, false, false⟩ => .narrow buf
    | ⟨true, false, false, false⟩ => .narrow (utf8DecodeBuf8 buf)
    | _ => .wide (utf8DecodeBuf16 buf)

def toCStringNarrow (src : List UInt8) : Bytes :=
  src.flatMap (fun c =>
    if c.toNat < 0x80 then [c]
    else [.ofNat (c.toNat >>> 6 ||| 0xC0), .ofNat (c.toNat &&& 0x3F ||| 0x80)])

/-- Unmatched surrogates are kept. -/
def toCStringWide : Units → Bytes
  | [] => []
  | c :: rest =>
    if c.toNat < 0x80 then .ofNat c.toNat :: toCStringWide rest
    else if isHiSurrogate c.toNat then
      match rest with
      | [] => utf8Encode c.toNat
      | c1 :: after =>
        if isLoSurrogate c1.toNat then
          utf8Encode (fromSurrogate c.toNat c1.toNat) ++ toCStringWide after
        else utf8Encode c.toNat ++ toCStringWide (c1 :: after)
    else utf8Encode c.toNat ++ toCStringWide rest

/-- `JS_ToCStringLen2` of a string, with `cesu8` false. -/
def toCStringLen : Str → Bytes
  | .narrow chars =>
    if chars.all (fun c => c.toNat < 0x80) then chars else toCStringNarrow chars
  | .wide chars => toCStringWide chars

end Quickjs
