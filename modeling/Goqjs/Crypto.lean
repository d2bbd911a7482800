import Goqjs.Hex
import Goqjs.Bindings

/-!
# crypto and zlib

What the two objects take from Go's libraries are parameters: digests, the block
cipher, keys, randomness and compression. Padding and block modes are here.
-/

namespace Polyfill

open Quickjs Qjs Pieces

variable {O ε : Type}

/-- `Except.error` carries the text of the error. `rsaEncrypt` is given what the random reader
delivers; `zlibRead` is `none` where the reader fails, at its start or later. -/
structure Libraries where
  md5Sum : Bytes → Bytes
  aesNewCipher : Bytes → Except GoString (Bytes → Bytes)
  PublicKey : Type
  pemDecode : GoString → Option Bytes
  parsePKIXPublicKey : Bytes → Except GoString (Option PublicKey)
  parsePKCS1PublicKey : Bytes → Except GoString PublicKey
  rsaEncryptPKCS1v15 : Bytes → PublicKey → Bytes → Except GoString Bytes
  zlibRead : Bytes → Option Bytes
  flateRead : Bytes → Except GoString Bytes
  zlibWrite : Bytes → Except GoString Bytes
  toLower : GoString → GoString
  toUpper : GoString → GoString

/-- Libraries that do nothing. -/
def plainLibraries : Libraries where
  md5Sum _ := []
  aesNewCipher _ := .error []
  PublicKey := Empty
  pemDecode _ := none
  parsePKIXPublicKey _ := .error []
  parsePKCS1PublicKey _ := .error []
  rsaEncryptPKCS1v15 _ _ _ := .error []
  zlibRead _ := none
  flateRead _ := .error []
  zlibWrite _ := .error []
  toLower := id
  toUpper := id

/-- The bytes of an `ArrayBuffer`, or the text of anything else. -/
def dataOf (v : Value O) : Call O ε Bytes := do
  match ← Call.toByteArray v with
  | some buf => return buf
  | none => Call.string v

def md5 (lib : Libraries) (args : List (Value O)) : Call O ε (Value O) :=
  match args with
  | [] => .throwError (ascii "md5 requires 1 argument")
  | a :: _ => do
    let data ← dataOf a
    return .newString (Hex.encodeToString (lib.md5Sum data))

/-- `random` is what the reader delivers for a size. -/
def randomBytes (random : Nat → Except GoString Bytes) (args : List (Value O)) :
    Call O ε (Value O) :=
  match args with
  | [] => .throwError (ascii "randomBytes requires 1 argument")
  | a :: _ => do
    let size ← Call.int32 a
    if size ≤ 0 then return .newArrayBuffer []
    else
      match random size.toNat with
      | .error err => .throwError (ascii "randomBytes: " ++ err)
      | .ok buf => return .newArrayBuffer buf

def blockSize : Nat := 16

/-- PKCS#7: as many bytes as are missing to full blocks, at least one, each of that value. -/
def pad (plaintext : Bytes) : Bytes :=
  let padding := blockSize - plaintext.length % blockSize
  plaintext ++ List.replicate padding (.ofNat padding)

/-- The blocks of a text. -/
def blockCutter : Cutter UInt8 Bytes where
  next a rest := (a :: rest.take (blockSize - 1), rest.drop (blockSize - 1))
  consumes _ rest := by simp

def xorBlock (a b : Bytes) : Bytes := List.zipWith (· ^^^ ·) a b

/-- `CryptBlocks` of a CBC encrypter; `prev` is the block before. -/
def cryptBlocks (encrypt : Bytes → Bytes) : Bytes → List Bytes → List Bytes
  | _, [] => []
  | prev, block :: rest =>
    let c := encrypt (xorBlock block prev)
    c :: cryptBlocks encrypt c rest

/-- The ciphertext in one of the two modes, or the text of the error. -/
def encryptMode (encrypt : Bytes → Bytes) (mode : GoString) (iv plaintext : Bytes) :
    Except GoString Bytes :=
  let blocks := blockCutter.cut (pad plaintext)
  if mode = ascii "cbc" then
    if iv.length < blockSize then .error (ascii "aesEncrypt: IV too short for CBC mode")
    else .ok (cryptBlocks encrypt (iv.take blockSize) blocks).flatten
  else if mode = ascii "ecb" then .ok (blocks.map encrypt).flatten
  else .error (ascii "aesEncrypt: unsupported mode: " ++ mode)

def aesEncrypt (lib : Libraries) (args : List (Value O)) : Call O ε (Value O) :=
  match args with
  | buffer :: modeArg :: keyArg :: ivArg :: _ => do
    let plaintext ← dataOf buffer
    let mode ← Call.string modeArg
    let key ← dataOf keyArg
    let iv ← dataOf ivArg
    match lib.aesNewCipher key with
    | .error err => .throwError (ascii "aesEncrypt: " ++ err)
    | .ok encrypt =>
      match encryptMode encrypt (lib.toLower mode) iv plaintext with
      | .error err => .throwError err
      | .ok ciphertext => return .newArrayBuffer ciphertext
  | _ => .throwError (ascii "aesEncrypt requires 4 arguments: buffer, mode, key, iv")

/-- The RSA key of a PEM text, or the text of the error. -/
def publicKeyOf (lib : Libraries) (keyPEM : GoString) : Except GoString lib.PublicKey :=
  match lib.pemDecode keyPEM with
  | none => .error (ascii "rsaEncrypt: invalid PEM")
  | some block =>
    match lib.parsePKIXPublicKey block with
    | .ok (some key) => .ok key
    | .ok none => .error (ascii "rsaEncrypt: not an RSA public key")
    | .error err =>
      match lib.parsePKCS1PublicKey block with
      | .ok key => .ok key
      | .error _ => .error (ascii "rsaEncrypt: parse key: " ++ err)

def rsaEncrypt (lib : Libraries) (random : Bytes) (args : List (Value O)) : Call O ε (Value O) :=
  match args with
  | buffer :: pem :: _ => do
    let plaintext ← dataOf buffer
    let keyPEM ← Call.string pem
    match publicKeyOf lib keyPEM with
    | .error err => .throwError err
    | .ok key =>
      match lib.rsaEncryptPKCS1v15 random key plaintext with
      | .error err => .throwError (ascii "rsaEncrypt: " ++ err)
      | .ok ciphertext => return .newArrayBuffer ciphertext
  | _ => .throwError (ascii "rsaEncrypt requires 2 arguments: buffer, publicKeyPEM")

/-- A promise that the function has settled before it returns it. -/
inductive Settled (O : Type) where
  | fulfilled (v : Value O)
  | rejected (v : Value O)

/-- Zlib first, then raw deflate. -/
def inflateBytes (lib : Libraries) (data : Bytes) : Except GoString Bytes :=
  match lib.zlibRead data with
  | some result => .ok result
  | none => lib.flateRead data

def inflate (lib : Libraries) (args : List (Value O)) : Call O ε (Settled O) :=
  match args with
  | [] => .throwError (ascii "inflate requires 1 argument")
  | a :: _ => do
    let data ← dataOf a
    match inflateBytes lib data with
    | .error err => return .rejected (.newString (ascii "inflate error: " ++ err))
    | .ok result => return .fulfilled (.newArrayBuffer result)

def deflate (lib : Libraries) (args : List (Value O)) : Call O ε (Settled O) :=
  match args with
  | [] => .throwError (ascii "deflate requires 1 argument")
  | a :: _ => do
    let data ← dataOf a
    match lib.zlibWrite data with
    | .error err => return .rejected (.newString (ascii "deflate error: " ++ err))
    | .ok result => return .fulfilled (.newArrayBuffer result)

end Polyfill
