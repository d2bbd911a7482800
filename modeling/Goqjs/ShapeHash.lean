import Goqjs.ShapeSharing

/-!
# The table of shapes

The table finds every hashed shape by its prototype and its properties. It finds them after it has
grown, too.
-/

namespace Shapes

variable {V : Type} {k s : Nat} {held : List Nat} {rt rt' : Runtime V} {sh sh' : Shape}
  {atom : Atom} {flags : Fin 64} {proto : Option Nat}

/-- What is put in front of its bucket one after the other. -/
theorem foldl_buckets (home : Nat → Nat) (l : List Nat) (buckets : Nat → List Nat) (b : Nat) :
    l.foldl (fun t s => Function.update t (home s) (s :: t (home s))) buckets b =
      (l.filter fun s => home s = b).reverse ++ buckets b := by
  induction l generalizing buckets with
  | nil => rfl
  | cons s l ih =>
    rw [List.foldl_cons, ih]
    by_cases same : home s = b
    · subst same
      rw [Function.update_self, List.filter_cons_of_pos (by simp), List.reverse_cons,
        List.append_assoc, List.singleton_append]
    · rw [Function.update_of_ne (Ne.symm same), List.filter_cons_of_neg (by simpa using same)]

theorem getShapeHash_lt (h : UInt32) (bits : Nat) : getShapeHash h bits < 2 ^ bits := by
  rw [getShapeHash, Nat.shiftRight_eq_div_pow]
  have lt : h.toNat < 2 ^ 32 := h.toNat_lt
  rcases Nat.le_total bits 32 with le | ge
  · apply Nat.div_lt_of_lt_mul
    rwa [← Nat.pow_add, Nat.sub_add_cancel le]
  · rw [Nat.sub_eq_zero_of_le ge, Nat.pow_zero, Nat.div_one]
    exact Nat.lt_of_lt_of_le lt (Nat.pow_le_pow_right (by omega) ge)

/-- The shapes of all buckets, each once. -/
theorem Shared.all_buckets (H : Shared k held rt) :
    ((List.range (2 ^ rt.shapeHashBits)).flatMap rt.shapeHash).Nodup ∧
      ∀ s, s ∈ (List.range (2 ^ rt.shapeHashBits)).flatMap rt.shapeHash ↔
        ∃ sh, rt.shapes s = some sh ∧ sh.isHashed = true := by
  constructor
  · rw [List.nodup_flatMap]
    refine ⟨fun b _ => H.once b, ?_⟩
    apply List.nodup_range.imp
    intro b b' ne s mem mem'
    obtain ⟨sh, at_s, -, eq⟩ := (H.table b s).mp mem
    obtain ⟨sh', at_s', -, eq'⟩ := (H.table b' s).mp mem'
    obtain rfl := Option.some.inj (at_s.symm.trans at_s')
    exact ne (eq.symm.trans eq')
  · intro s
    rw [List.mem_flatMap]
    constructor
    · rintro ⟨b, -, mem⟩
      obtain ⟨sh, at_s, hashed, -⟩ := (H.table b s).mp mem
      exact ⟨sh, at_s, hashed⟩
    · rintro ⟨sh, at_s, hashed⟩
      exact ⟨_, List.mem_range.mpr (getShapeHash_lt _ _), (H.linked at_s hashed _).mpr rfl⟩

/-- `resize_shape_hash`. -/
theorem Shared.resize (H : Shared k held rt) : Shared k held (resizeShapeHash rt) := by
  obtain ⟨distinct, all⟩ := H.all_buckets
  have buckets := foldl_buckets
    (fun s => getShapeHash ((rt.shapes s).elim 0 Shape.hash) (rt.shapeHashBits + 1))
    ((List.range (2 ^ rt.shapeHashBits)).flatMap rt.shapeHash) (fun _ => [])
  refine ⟨H.fresh, H.ok, H.there, H.counted, H.own, ?_, ?_, H.hash⟩
  · intro b s
    have bucket : (resizeShapeHash rt).shapeHash b = _ := buckets b
    rw [bucket, List.append_nil, List.mem_reverse, List.mem_filter, all, decide_eq_true_eq]
    constructor
    · rintro ⟨⟨sh, at_s, hashed⟩, home⟩
      rw [at_s] at home
      exact ⟨sh, at_s, hashed, home⟩
    · rintro ⟨sh, at_s, hashed, home⟩
      have at_s' : rt.shapes s = some sh := at_s
      refine ⟨⟨sh, at_s, hashed⟩, ?_⟩
      rw [at_s']
      exact home
  · intro b
    have bucket : (resizeShapeHash rt).shapeHash b = _ := buckets b
    rw [bucket, List.append_nil]
    exact List.nodup_reverse.mpr (distinct.filter _)

theorem hashOf_append (proto : Option Nat) (ns : List (Atom × Fin 64)) (atom : Atom)
    (flags : Fin 64) : hashOf proto (ns ++ [(atom, flags)]) =
      shapeHash (shapeHash (hashOf proto ns) atom) (.ofNat flags.val) := by
  simp [hashOf]

/-- What a search in a bucket finds. -/
theorem Shared.found (H : Shared k held rt) {b : Nat} {test : Shape → Bool}
    (found : (rt.shapeHash b).find? (fun s => (rt.shapes s).any test) = some s) :
    ∃ sh, rt.shapes s = some sh ∧ sh.isHashed = true ∧ test sh = true := by
  obtain ⟨sh, at_s, hashed, -⟩ := (H.table b s).mp (List.mem_of_find?_eq_some found)
  have passes := List.find?_some found
  rw [at_s, Option.any_some] at passes
  exact ⟨sh, at_s, hashed, passes⟩

/-- A search that finds nothing misses nothing. -/
theorem Shared.not_found (H : Shared k held rt) {b : Nat} {test : Shape → Bool}
    (missing : (rt.shapeHash b).find? (fun s => (rt.shapes s).any test) = none)
    (at_s : rt.shapes s = some sh) (hashed : sh.isHashed = true)
    (home : getShapeHash (hashOf sh.proto (names sh.prop)) rt.shapeHashBits = b) :
    test sh = false := by
  rw [← H.hash s sh at_s hashed] at home
  have fails := List.find?_eq_none.mp missing s ((H.linked at_s hashed b).mpr home)
  rw [at_s, Option.any_some] at fails
  simpa using fails

theorem Shared.proto_found (H : Shared k held rt) (found : findHashedShapeProto rt proto = some s) :
    ∃ sh, rt.shapes s = some sh ∧ sh.isHashed = true ∧ sh.proto = proto ∧ sh.prop = [] := by
  obtain ⟨sh, at_s, hashed, passes⟩ := H.found found
  simp only [Bool.and_eq_true, beq_iff_eq, List.length_eq_zero_iff] at passes
  exact ⟨sh, at_s, hashed, passes.1.2, passes.2⟩

theorem Shared.proto_not_found (H : Shared k held rt)
    (missing : findHashedShapeProto rt proto = none)
    (at_s : rt.shapes s = some sh) (hashed : sh.isHashed = true) : sh.layout ≠ (proto, []) := by
  intro layout
  obtain ⟨rfl, empty⟩ := Prod.mk.inj layout
  have home := H.hash s sh at_s hashed
  have fails := H.not_found missing at_s hashed (by rw [empty]; rfl)
  rw [empty] at home
  have none_there : sh.prop.length = 0 := by rw [← length_names, empty, List.length_nil]
  simp [home, none_there, hashOf] at fails

theorem Shared.prop_found (H : Shared k held rt)
    (found : findHashedShapeProp rt sh atom flags = some s) :
    ∃ sh', rt.shapes s = some sh' ∧ sh'.isHashed = true ∧ sh'.proto = sh.proto ∧
      names sh'.prop = names sh.prop ++ [(atom, flags)] := by
  obtain ⟨sh', at_s, hashed, passes⟩ := H.found found
  simp only [Bool.and_eq_true, beq_iff_eq] at passes
  exact ⟨sh', at_s, hashed, passes.1.2, passes.2⟩

theorem Shared.prop_not_found (H : Shared k held rt)
    (hash : sh.hash = hashOf sh.proto (names sh.prop))
    (missing : findHashedShapeProp rt sh atom flags = none) (at_s : rt.shapes s = some sh')
    (hashed : sh'.isHashed = true) :
    sh'.layout ≠ (sh.proto, names sh.prop ++ [(atom, flags)]) := by
  intro layout
  obtain ⟨proto, same⟩ := Prod.mk.inj layout
  have home := H.hash s sh' at_s hashed
  have fails := H.not_found missing at_s hashed (by rw [proto, same, hashOf_append, hash])
  rw [proto, same, hashOf_append, ← hash] at home
  simp [home, proto, same] at fails

theorem shapeOk_empty (hashSize : Nat) (positive : 0 < hashSize) (k propSize refCount : Nat)
    (isHashed : Bool) (hash : UInt32) (proto : Option Nat) :
    ShapeOk k ⟨refCount, isHashed, hash, List.replicate hashSize 0, propSize, 0, proto, []⟩ := by
  refine ⟨by simpa using positive, ?_, .nil, rfl, Nat.zero_le _, Nat.zero_le _⟩
  intro b lt
  simp only [List.length_replicate] at lt
  simp [ChainedIndex.members, ChainedIndex.Chain, List.getD, lt]

/-- `js_new_shape_nohash`. -/
theorem Shared.new_nohash (H : Shared k held rt) {hashSize : Nat} (positive : 0 < hashSize)
    (proto : Option Nat) (propSize : Nat) :
    Shared k (rt.nextShape :: held) (jsNewShapeNohash rt proto hashSize propSize) :=
  H.create (shapeOk_empty hashSize positive ..) rfl rfl

/-- `js_new_shape`. -/
theorem Shared.new_hashed (H : Shared k held rt) (proto : Option Nat) :
    Shared k (rt.nextShape :: held) (jsNewShape rt proto) ∧
      (jsNewShape rt proto).shapes = Function.update rt.shapes rt.nextShape
        (some ⟨1, true, shapeInitialHash proto, List.replicate 4 0, 2, 0, proto, []⟩) ∧
      (jsNewShape rt proto).objects = rt.objects ∧
      (jsNewShape rt proto).nextObject = rt.nextObject := by
  have larger : ∃ rt₁, (if 2 * (rt.shapeHashCount + 1) > 2 ^ rt.shapeHashBits then
      resizeShapeHash rt else rt) = rt₁ ∧ Shared k held rt₁ ∧ rt₁.shapes = rt.shapes ∧
        rt₁.nextShape = rt.nextShape ∧ rt₁.objects = rt.objects ∧
        rt₁.nextObject = rt.nextObject := by
    split_ifs
    · exact ⟨_, rfl, H.resize, rfl, rfl, rfl, rfl⟩
    · exact ⟨_, rfl, H, rfl, rfl, rfl, rfl⟩
  obtain ⟨rt₁, resized, H₁, shapes, next, objects, count⟩ := larger
  have ok := shapeOk_empty 4 (by omega) k 2 1 true (shapeInitialHash proto) proto
  have created := H₁.create_linked ok rfl rfl rfl
  rw [jsNewShape, resized, ← next, ← shapes]
  exact ⟨created, rfl, objects, count⟩

end Shapes
