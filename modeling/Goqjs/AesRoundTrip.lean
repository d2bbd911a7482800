import Goqjs.BinaryInput
import Goqjs.BlockModes
import Goqjs.ExceptionTransparency

/-!
# aesEncrypt is inverted

A plaintext is padded to full blocks and every block is encrypted once, so the ciphertext is
decrypted block by block and what is left of the padding is taken off.
-/

namespace Polyfill

open Quickjs Qjs Pieces BlockModes NetUrl

variable {E : Engine} {ε : Type}

def IsBlock (b : Bytes) : Prop := b.length = blockSize

/-- What is cut off in front of a text that consists of blocks. -/
theorem cut_flatten {blocks : List Bytes} (h : ∀ b ∈ blocks, IsBlock b) :
    blockCutter.cut blocks.flatten = blocks := by
  have inverts : ∀ b ∈ blocks, blockCutter.Inverts id b := by
    intro b hb
    have length : b.length = 16 := h b hb
    obtain ⟨a, more, rfl⟩ := List.exists_cons_of_ne_nil (List.ne_nil_of_length_eq_add_one length)
    have rest : more.length = blockSize - 1 := by simpa [blockSize] using length
    refine ⟨a, more, rfl, fun tail => ?_⟩
    simp only [blockCutter, List.take_left' rest, List.drop_left' rest]
  have whole := blockCutter.cut_flatMap_append inverts []
  rwa [List.flatMap_id, List.append_nil, Cutter.cut_nil, List.append_nil] at whole

/-- A text of full blocks is cut into them. -/
theorem blocks_cut {n : Nat} {text : Bytes} (h : text.length = blockSize * n) :
    ∃ blocks : List Bytes, text = blocks.flatten ∧ (∀ b ∈ blocks, IsBlock b) ∧
      blocks.length = n := by
  induction n generalizing text with
  | zero =>
    obtain rfl := List.length_eq_zero_iff.mp h
    exact ⟨[], rfl, by simp, rfl⟩
  | succ n ih =>
    have enough : blockSize ≤ text.length := by
      rw [h]
      exact Nat.le_mul_of_pos_right _ (Nat.succ_pos n)
    have rest : (text.drop blockSize).length = blockSize * n := by
      rw [List.length_drop, h, Nat.mul_succ, Nat.add_sub_cancel]
    obtain ⟨blocks, eq, full, count⟩ := ih rest
    refine ⟨text.take blockSize :: blocks, ?_, ?_, by rw [List.length_cons, count]⟩
    · rw [List.flatten_cons, ← eq, List.take_append_drop]
    · intro b hb
      rcases List.mem_cons.mp hb with rfl | hb
      · exact List.length_take_of_le enough
      · exact full b hb

theorem length_flatten {blocks : List Bytes} (h : ∀ b ∈ blocks, IsBlock b) :
    blocks.flatten.length = blockSize * blocks.length := by
  induction blocks with
  | nil => rfl
  | cons b rest ih =>
    have first : b.length = blockSize := h b List.mem_cons_self
    rw [List.flatten_cons, List.length_append, first, ih fun d hd => h d (List.mem_cons_of_mem _ hd),
      List.length_cons, Nat.mul_succ, Nat.add_comm]

theorem length_pad (p : Bytes) : (pad p).length = blockSize * (p.length / blockSize + 1) := by
  simp only [pad, List.length_append, List.length_replicate, blockSize]
  omega

theorem unpad_pad (p : Bytes) : unpad blockSize (pad p) = some p := by
  have rest : p.length % blockSize < blockSize := Nat.mod_lt _ (by decide)
  exact unpad_append (by decide) (by omega) (Nat.sub_le _ _) p

theorem mixes_xorBlock : Mixes xorBlock IsBlock := by
  refine ⟨fun a b ha hb => ?_, fun a b ha hb => ?_⟩
  · have length : (xorBlock a b).length = min a.length b.length := List.length_zipWith
    rw [IsBlock, length, ha, hb, Nat.min_self]
  · have same : a.length = b.length := ha.trans hb.symm
    clear ha hb
    induction a generalizing b with
    | nil => rfl
    | cons x a ih =>
      cases b with
      | nil => cases same
      | cons y b =>
        have tail := ih b (Nat.succ.inj same)
        change (x ^^^ y ^^^ y) :: xorBlock (xorBlock a b) b = x :: a
        rw [tail, UInt8.xor_assoc, UInt8.xor_self, UInt8.xor_zero]

theorem cryptBlocks_eq (encrypt : Bytes → Bytes) (prev : Bytes) (blocks : List Bytes) :
    cryptBlocks encrypt prev blocks = chain xorBlock encrypt prev blocks := by
  induction blocks generalizing prev with
  | nil => rfl
  | cons b rest ih => exact congrArg (_ :: ·) (ih _)

/-- Decrypt block by block in one of the modes, and take the padding off. -/
def decryptMode (decrypt : Bytes → Bytes) (mode : GoString) (iv ciphertext : Bytes) :
    Option Bytes :=
  let blocks := blockCutter.cut ciphertext
  if mode = ascii "cbc" then
    unpad blockSize (unchain xorBlock decrypt (iv.take blockSize) blocks).flatten
  else unpad blockSize (blocks.map decrypt).flatten

/-- The modes there are, and the vectors that they take. -/
def KnownMode (mode : GoString) (iv : Bytes) : Prop :=
  mode = ascii "ecb" ∨ (mode = ascii "cbc" ∧ blockSize ≤ iv.length)

theorem decrypt_encryptMode {encrypt decrypt : Bytes → Bytes}
    (inverts : Inverts IsBlock encrypt decrypt) {mode : GoString} {iv : Bytes}
    (known : KnownMode mode iv) (p : Bytes) : ∃ ciphertext,
      encryptMode encrypt mode iv p = .ok ciphertext ∧
        ciphertext.length = blockSize * (p.length / blockSize + 1) ∧
          decryptMode decrypt mode iv ciphertext = some p := by
  obtain ⟨blocks, text, full, count⟩ := blocks_cut (length_pad p)
  have cut : blockCutter.cut (pad p) = blocks := by rw [text, cut_flatten full]
  have unpadded := unpad_pad p
  rw [text] at unpadded
  rcases known with rfl | ⟨rfl, long⟩
  · have ok : ∀ c ∈ blocks.map encrypt, IsBlock c := by
      intro c hc
      obtain ⟨b, hb, rfl⟩ := List.mem_map.mp hc
      exact inverts.encrypts b (full b hb)
    refine ⟨(blocks.map encrypt).flatten, ?_, ?_, ?_⟩
    · rw [encryptMode, if_neg (by decide), if_pos rfl, cut]
    · rw [length_flatten ok, List.length_map, count]
    · rw [decryptMode, if_neg (by decide), cut_flatten ok, map_decrypt inverts full, unpadded]
  · have start : IsBlock (iv.take blockSize) := List.length_take_of_le long
    have ok := ok_chain inverts mixes_xorBlock start full
    refine ⟨(chain xorBlock encrypt (iv.take blockSize) blocks).flatten, ?_, ?_, ?_⟩
    · rw [encryptMode, if_pos rfl, if_neg (Nat.not_lt.mpr long), cut, cryptBlocks_eq]
    · rw [length_flatten ok, length_chain, count]
    · rw [decryptMode, if_pos rfl, cut_flatten ok, unchain_chain inverts mixes_xorBlock start full,
        unpadded]

theorem encryptMode_error (encrypt : Bytes → Bytes) {mode : GoString} {iv : Bytes}
    (unknown : ¬ KnownMode mode iv) (p : Bytes) : ∃ err, encryptMode encrypt mode iv p = .error err := by
  unfold encryptMode
  split_ifs with cbc short ecb
  · exact ⟨_, rfl⟩
  · exact absurd (.inr ⟨cbc, Nat.not_lt.mp short⟩) unknown
  · exact absurd (.inl ecb) unknown
  · exact ⟨_, rfl⟩

/-- `strings.ToLower`: ASCII letters are lowered, and what is not ASCII stays so, but for the two
letters that become an `i` and a `k`. -/
structure LowersCase (lower : GoString → GoString) : Prop where
  ascii : ∀ m, (∀ c ∈ m, c.toNat < 0x80) → lower m = toLower m
  other : ∀ m, (∃ c ∈ m, 0x80 ≤ c.toNat) → ∃ c ∈ lower m, 0x80 ≤ c.toNat ∨ c = 0x69 ∨ c = 0x6B

/-- `aes.NewCipher` takes keys of three lengths and gives a permutation of the blocks. -/
def ValidKey (key : Bytes) : Prop := key.length = 16 ∨ key.length = 24 ∨ key.length = 32

structure AesCipher (lib : Libraries) (decrypt : Bytes → Bytes → Bytes) : Prop where
  known : ∀ key, ValidKey key →
    ∃ encrypt, lib.aesNewCipher key = .ok encrypt ∧ Inverts IsBlock encrypt (decrypt key)
  unknown : ∀ key, ¬ ValidKey key → ∃ err, lib.aesNewCipher key = .error err

theorem mem_toLower {m : GoString} {c : UInt8} (mem : c ∈ m) (high : 0x80 ≤ c.toNat) :
    c ∈ toLower m := by
  have stays : ¬ (0x41 ≤ c && c ≤ 0x5A) = true := by
    intro upper
    have bound := (Bool.and_eq_true_iff.mp upper).2
    have le : c.toNat ≤ 0x5A := by simpa [UInt8.le_iff_toNat_le] using bound
    omega
  exact List.mem_map.mpr ⟨c, mem, if_neg stays⟩

theorem lower_eq_iff {lower : GoString → GoString} (h : LowersCase lower) {t : GoString}
    (letters : ∀ c ∈ t, c.toNat < 0x80 ∧ c ≠ 0x69 ∧ c ≠ 0x6B) (m : GoString) :
    lower m = t ↔ toLower m = t := by
  by_cases high : ∃ c ∈ m, 0x80 ≤ c.toNat
  · refine iff_of_false ?_ ?_
    · rintro rfl
      obtain ⟨c, hc, strange⟩ := h.other m high
      obtain ⟨low, notI, notK⟩ := letters c hc
      rcases strange with strange | strange | strange
      · omega
      · exact notI strange
      · exact notK strange
    · rintro rfl
      obtain ⟨c, hc, notAscii⟩ := high
      exact absurd (letters c (mem_toLower hc notAscii)).1 (by omega)
  · rw [h.ascii m fun c hc => Nat.lt_of_not_le fun le => high ⟨c, hc, le⟩]

theorem knownMode_lower {lower : GoString → GoString} (h : LowersCase lower) (m : GoString)
    (iv : Bytes) : KnownMode (lower m) iv ↔ KnownMode (toLower m) iv := by
  rw [KnownMode, KnownMode, lower_eq_iff h (by decide), lower_eq_iff h (by decide)]

theorem returns_dataOf {v : Value E.Obj} {data : Bytes} (h : StandsFor v data) :
    Returns (dataOf v : Call E.Obj ε Bytes) fun b => b = data := by
  intro s
  have same := alike_dataOf h (fun b => (pure b : Call E.Obj ε Bytes)) s s rfl
  rw [show (dataOf v >>= fun b => (pure b : Call E.Obj ε Bytes)) = dataOf v from
    Call.bind_ret _] at same
  cases result : (run E (dataOf v : Call E.Obj ε Bytes) s).result with
  | none => simp [observed, result] at same
  | some b => exact ⟨b, rfl, by simpa [observed, result] using same⟩

theorem returns_dataOf_any (v : Value E.Obj) :
    Returns (dataOf v : Call E.Obj ε Bytes) fun _ => True := by
  refine Returns.op fun buf => ?_
  cases buf with
  | none => exact Returns.op fun _ => Returns.pure trivial
  | some b => exact Returns.pure trivial

/-- What the script gets of a ciphertext or of an error. -/
def deliver (r : Except GoString Bytes) : Call E.Obj (Effect E.Obj) (Value E.Obj) :=
  match r with
  | .error err => .throwError err
  | .ok ciphertext => return .newArrayBuffer ciphertext

theorem aesEncrypt_eq (lib : Libraries) (buffer mode key iv : Value E.Obj)
    (more : List (Value E.Obj)) :
    (aesEncrypt lib (buffer :: mode :: key :: iv :: more) :
      Call E.Obj (Effect E.Obj) (Value E.Obj)) =
      readAes buffer mode key iv >>= fun r => deliver (aesResult lib r) := by
  simp only [aesEncrypt, readAes, bind_assoc]
  refine bind_congr fun plaintext => bind_congr fun mode => bind_congr fun key =>
    bind_congr fun iv => ?_
  simp only [Call.pure_bind, aesResult]
  cases lib.aesNewCipher key with
  | error err => rfl
  | ok encrypt =>
    simp only
    cases encryptMode encrypt (lib.toLower mode) iv plaintext <;> rfl

/-- What the script gets of a call; nothing where it throws. -/
def aesGives (lib : Libraries) (args : List (Value E.Obj)) (s : Rt E) : Option (Value E.Obj) :=
  (run E (aesEncrypt lib args : Call E.Obj (Effect E.Obj) (Value E.Obj)) s).result

/-- The arguments are read as the bytes that they stand for; a vector is whatever it is read as. -/
theorem result_aesEncrypt (lib : Libraries) {buffer keyArg : Value E.Obj} {p key : Bytes}
    (data : StandsFor buffer p) (keyText : StandsFor keyArg key) (mode : Str)
    (ivArg : Value E.Obj) (more : List (Value E.Obj)) (s : Rt E) :
    ∃ iv t, (∀ b, StandsFor ivArg b → iv = b) ∧
      aesGives lib (buffer :: .string mode :: keyArg :: ivArg :: more) s =
        (run E (deliver (aesResult lib (p, toCStringLen mode, key, iv))) t).result := by
  have read : ∃ iv, (∀ b, StandsFor ivArg b → iv = b) ∧
      (run E (readAes buffer (.string mode) keyArg ivArg) s).result =
        some (p, toCStringLen mode, key, iv) := by
    have first := returns_dataOf (ε := Effect E.Obj) data
    have second := returns_dataOf (ε := Effect E.Obj) keyText
    obtain ⟨_, one, rfl⟩ := first s
    unfold readAes
    rw [result_bind, one, Option.bind_some, Call.string_bind, run_string]
    obtain ⟨_, two, rfl⟩ := second (run E (dataOf buffer) s).rt
    rw [result_bind, two, Option.bind_some, result_bind]
    obtain ⟨iv, three, _⟩ := returns_dataOf_any (ε := Effect E.Obj) ivArg
      (run E (dataOf keyArg) (run E (dataOf buffer) s).rt).rt
    refine ⟨iv, fun b hb => ?_, by rw [three]; rfl⟩
    obtain ⟨_, again, rfl⟩ := returns_dataOf (ε := Effect E.Obj) hb
      (run E (dataOf keyArg) (run E (dataOf buffer) s).rt).rt
    exact Option.some.inj (three.symm.trans again)
  obtain ⟨iv, stands, eq⟩ := read
  refine ⟨iv, (run E (readAes buffer (.string mode) keyArg ivArg) s).rt, stands, ?_⟩
  rw [aesGives, aesEncrypt_eq, result_bind, eq, Option.bind_some]

/-- For a key of the three lengths and a known mode the ciphertext decrypts to the plaintext. For
any other key, mode or too short a vector the call throws. -/
theorem aes_encrypt_inverts (lib : Libraries) (lower : LowersCase lib.toLower)
    (decrypt : Bytes → Bytes → Bytes) (aes : AesCipher lib decrypt) (buffer keyArg : Value E.Obj)
    (p key : Bytes) (data : StandsFor buffer p) (keyText : StandsFor keyArg key) (mode : Str)
    (ivArg : Value E.Obj) (more : List (Value E.Obj)) (s : Rt E) :
    ∃ iv, (∀ b, StandsFor ivArg b → iv = b) ∧
      (ValidKey key ∧ KnownMode (toLower (toCStringLen mode)) iv → ∃ ciphertext,
        aesGives lib (buffer :: .string mode :: keyArg :: ivArg :: more) s =
          some (.arrayBuffer ciphertext) ∧
        ciphertext.length = 16 * (p.length / 16 + 1) ∧
        decryptMode (decrypt key) (toLower (toCStringLen mode)) iv ciphertext = some p) ∧
      (¬ (ValidKey key ∧ KnownMode (toLower (toCStringLen mode)) iv) →
        aesGives lib (buffer :: .string mode :: keyArg :: ivArg :: more) s = none) := by
  obtain ⟨iv, t, stands, result⟩ := result_aesEncrypt lib data keyText mode ivArg more s
  have modes := knownMode_lower lower (toCStringLen mode) iv
  refine ⟨iv, stands, ?_, fun rejected => ?_⟩
  · rintro ⟨valid, known⟩
    obtain ⟨encrypt, cipher, inverts⟩ := aes.known key valid
    obtain ⟨ciphertext, ok, length, back⟩ := decrypt_encryptMode inverts known p
    have same : lib.toLower (toCStringLen mode) = toLower (toCStringLen mode) := by
      rcases known with ecb | ⟨cbc, _⟩
      · rw [ecb]
        exact (lower_eq_iff lower (by decide) _).mpr ecb
      · rw [cbc]
        exact (lower_eq_iff lower (by decide) _).mpr cbc
    refine ⟨ciphertext, ?_, length, back⟩
    rw [result, aesResult]
    simp only [cipher, same, ok]
    rfl
  · have fails : ∃ err, aesResult lib (p, toCStringLen mode, key, iv) = .error err := by
      unfold aesResult
      by_cases valid : ValidKey key
      · obtain ⟨encrypt, cipher, _⟩ := aes.known key valid
        obtain ⟨err, error⟩ := encryptMode_error encrypt
          (fun known => rejected ⟨valid, modes.mp known⟩) p
        exact ⟨err, by simp only [cipher, error]⟩
      · obtain ⟨err, error⟩ := aes.unknown key valid
        exact ⟨_, by simp only [error]; rfl⟩
    obtain ⟨err, error⟩ := fails
    rw [result, error]
    rfl

instance (key : Bytes) : Decidable (ValidKey key) := inferInstanceAs (Decidable (_ ∨ _ ∨ _))

/-- Two strings of bytes change places. -/
def exchange (plain cipher b : Bytes) : Bytes :=
  if b = plain then cipher else if b = cipher then plain else b

theorem exchange_exchange (plain cipher b : Bytes) :
    exchange plain cipher (exchange plain cipher b) = b := by
  by_cases at_plain : b = plain
  · by_cases same : cipher = plain
    · rw [exchange, exchange, if_pos at_plain, if_pos same, same, at_plain]
    · rw [exchange, exchange, if_pos at_plain, if_neg same, if_pos rfl, at_plain]
  · by_cases at_cipher : b = cipher
    · rw [exchange, exchange, if_neg at_plain, if_pos at_cipher, if_pos rfl, at_cipher]
    · rw [exchange, exchange, if_neg at_plain, if_neg at_cipher, if_neg at_plain,
        if_neg at_cipher]

theorem isBlock_exchange {plain cipher b : Bytes} (hp : IsBlock plain) (hc : IsBlock cipher)
    (hb : IsBlock b) : IsBlock (exchange plain cipher b) := by
  unfold exchange
  split_ifs
  · exact hc
  · exact hp
  · exact hb

/-- The bytes `00 01 .. 0f` as the key, `10 .. 1f` as the vector and `20 .. 33` as the plaintext. -/
def sampleKey : Bytes := (List.range 16).map .ofNat

def sampleIv : Bytes := (List.range' 16 16).map .ofNat

def samplePlaintext : Bytes := (List.range' 32 20).map .ofNat

/-- What the cipher gets for the plaintext, padded and mixed, and what it makes of that. -/
def block1 : Bytes := List.replicate 16 0x30

def cipher1 : Bytes :=
  [0x9B, 0xB5, 0xF6, 0x01, 0x88, 0x4F, 0xCD, 0x6F, 0x6E, 0x29, 0xB2, 0x3F, 0x82, 0xCC, 0xA7, 0x7A]

def block2 : Bytes :=
  [0xAB, 0x84, 0xC4, 0x32, 0x84, 0x43, 0xC1, 0x63, 0x62, 0x25, 0xBE, 0x33, 0x8E, 0xC0, 0xAB, 0x76]

def cipher2 : Bytes :=
  [0x1D, 0xEA, 0x50, 0xE7, 0x23, 0xCA, 0xE0, 0x5D, 0xE7, 0x69, 0x93, 0x7B, 0x90, 0xDB, 0x01, 0x5E]

/-- A permutation that does with these two blocks what the cipher does. -/
def encryptBlock (b : Bytes) : Bytes := exchange block1 cipher1 (exchange block2 cipher2 b)

def decryptBlock (b : Bytes) : Bytes := exchange block2 cipher2 (exchange block1 cipher1 b)

def exchangeLibraries : Libraries :=
  { plainLibraries with
    aesNewCipher := fun key =>
      if ValidKey key then .ok encryptBlock
      else .error (ascii "crypto/aes: invalid key size " ++ decimal key.length)
    toLower := toLower }

theorem inverts_encryptBlock : Inverts IsBlock encryptBlock decryptBlock := by
  refine ⟨fun b hb => ?_, fun b _ => ?_⟩
  · exact isBlock_exchange (rfl : block1.length = 16) (rfl : cipher1.length = 16)
      (isBlock_exchange (rfl : block2.length = 16) (rfl : cipher2.length = 16) hb)
  · rw [decryptBlock, encryptBlock, exchange_exchange, exchange_exchange]

theorem aesCipher_exchange : AesCipher exchangeLibraries fun _ => decryptBlock := by
  refine ⟨fun key valid => ⟨encryptBlock, if_pos valid, inverts_encryptBlock⟩, fun key invalid => ?_⟩
  exact ⟨_, if_neg invalid⟩

theorem lowersCase_toLower : LowersCase toLower := by
  refine ⟨fun m _ => rfl, ?_⟩
  rintro m ⟨c, mem, high⟩
  exact ⟨c, mem_toLower mem high, .inl high⟩

/-- Twenty bytes, so two blocks, in the mode `CBC`. -/
theorem aes_encrypt_inverts_cbc : ∃ ciphertext,
    aesGives (E := plainEngine) exchangeLibraries [.arrayBuffer samplePlaintext,
      .string (js "CBC"), .arrayBuffer sampleKey, .arrayBuffer sampleIv] plainRt =
        some (.arrayBuffer ciphertext) ∧ ciphertext.length = 32 ∧
      decryptMode decryptBlock (toLower (toCStringLen (js "CBC"))) sampleIv ciphertext =
        some samplePlaintext := by
  obtain ⟨iv, stands, encrypts, _⟩ := aes_encrypt_inverts (E := plainEngine) exchangeLibraries
    lowersCase_toLower (fun _ => decryptBlock) aesCipher_exchange (.arrayBuffer samplePlaintext)
    (.arrayBuffer sampleKey) _ _ (.arrayBuffer _) (.arrayBuffer _) (js "CBC")
    (.arrayBuffer sampleIv) [] plainRt
  obtain rfl := stands sampleIv (.arrayBuffer _)
  exact encrypts ⟨by decide, .inr ⟨by decide, by decide⟩⟩

-- The two blocks are what the mode asks the cipher for.
example : encryptMode encryptBlock (ascii "cbc") sampleIv samplePlaintext =
    .ok (cipher1 ++ cipher2) := by decide

end Polyfill
