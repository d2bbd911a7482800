import Goqjs.UrlSpelling

/-!
# Hosts

A host is a name, or an address in brackets that may have a zone; both may have a port.
-/

namespace NetUrl

open Qjs Separators Percent

variable {isIPv6 : GoString → Bool} {scheme g h : GoString}

theorem cutZone_append (s : GoString) : (cutZone s).1 ++ (cutZone s).2 = s := by
  induction s with
  | nil => rfl
  | cons c s ih =>
    rw [cutZone]
    split
    · rfl
    · rw [List.cons_append, ih]

theorem cutZone_zone (s : GoString) : (cutZone s).2 = [] ∨ escapedPercent <+: (cutZone s).2 := by
  induction s with
  | nil => exact .inl rfl
  | cons c s ih =>
    rw [cutZone]
    split
    · rename_i h
      exact .inr (List.isPrefixOf_iff_prefix.mp h)
    · exact ih

theorem cutZone_of_noPercent {s : GoString} (h : percent ∉ s) : cutZone s = (s, []) := by
  have append := cutZone_append s
  rcases cutZone_zone s with none | ⟨rest, zone⟩
  · rw [none, List.append_nil] at append
    exact Prod.ext append none
  · refine absurd ?_ h
    rw [← append, ← zone]
    simp [escapedPercent, ascii]

theorem ascii_of_port {port : GoString} (h : validOptionalPort port = true) :
    percent ∉ port ∧ openBracket ∉ port ∧ closeBracket ∉ port ∧
      ∀ c ∈ port, mayStand .host c = true := by
  cases port with
  | nil => simp
  | cons c port =>
    obtain ⟨rfl, digits⟩ : c = colon ∧ ∀ d ∈ port, isDigit d = true := by
      simpa [validOptionalPort] using h
    have notDigit {d : UInt8} (ne : d ≠ colon) (no : isDigit d = false) : d ∉ colon :: port := by
      intro mem
      rcases List.mem_cons.mp mem with eq | mem
      · exact ne eq
      · rw [digits d mem] at no
        cases no
    refine ⟨notDigit (by decide) (by decide), notDigit (by decide) (by decide),
      notDigit (by decide) (by decide), fun d hd => ?_⟩
    rcases List.mem_cons.mp hd with rfl | hd
    · decide
    · simp [mayStand, shouldEscape, digits d hd]

theorem notForm_host : (coding .host).form = false := rfl
theorem notForm_zone : (coding .zone).form = false := rfl

theorem decoded_port {port : GoString} (h : validOptionalPort port = true) :
    (coding .host).Decoded port port := by
  obtain ⟨noPercent, _, _, stand⟩ := ascii_of_port h
  exact Coding.decoded_self notForm_host noPercent stand

inductive ReadsHost (isIPv6 : GoString → Bool) (scheme : GoString) : GoString → GoString → Prop where
  | name {g h : GoString} (bracket : openBracket ∉ g)
      (port : validOptionalPort (colonPort scheme g) = true)
      (read : (coding .host).Decoded g h) : ReadsHost isIPv6 scheme g h
  | literal {hp zp a b port : GoString} (bracket : openBracket ∉ hp ++ zp)
      (zone : cutZone (hp ++ zp) = (hp, zp)) (valid : validOptionalPort port = true)
      (readHost : (coding .host).Decoded hp a) (readZone : (coding .zone).Decoded zp b)
      (address : isIPv6 (a ++ b) = true) :
      ReadsHost isIPv6 scheme (openBracket :: (hp ++ zp) ++ closeBracket :: port)
        (openBracket :: (a ++ b) ++ closeBracket :: port)

theorem parseIPLiteral_eq_some (read : parseIPLiteral isIPv6 g = some h)
    (bracket : openBracket ∉ g) : ReadsHost isIPv6 scheme (openBracket :: g) h := by
  have glued := glue_cutLast closeBracket g
  unfold parseIPLiteral at read
  rcases hcut : cutLast closeBracket g with ⟨first, port⟩
  rw [hcut] at glued read
  obtain ⟨hostname, hfirst, read'⟩ := Option.bind_eq_some_iff.mp read
  clear read
  change first = some hostname at hfirst
  subst hfirst
  simp only at read'
  split_ifs at read' with invalid
  have valid : validOptionalPort port = true := by simpa using invalid
  obtain ⟨port', hport, read⟩ := Option.bind_eq_some_iff.mp read'
  clear read'
  have same : port' = port :=
    (Coding.decoded_of_decode hport).eq_of_noPercent notForm_host (ascii_of_port valid).1
  have parts := cutZone_append hostname
  rcases hzone : cutZone hostname with ⟨hp, zp⟩
  rw [hzone] at read parts
  obtain ⟨a, ha, read⟩ := Option.bind_eq_some_iff.mp read
  obtain ⟨b, hb, read⟩ := Option.bind_eq_some_iff.mp read
  split_ifs at read with address
  cases read
  simp only at parts
  rw [← parts] at hzone
  rw [closed_some, List.append_assoc, List.singleton_append] at glued
  rw [← glued, ← parts] at bracket ⊢
  rw [same]
  exact .literal (fun mem => bracket (List.mem_append_left _ mem)) hzone valid
    (Coding.decoded_of_decode ha) (Coding.decoded_of_decode hb) address

theorem parseHost_eq_some_iff :
    parseHost isIPv6 scheme g = some h ↔ ReadsHost isIPv6 scheme g h := by
  have glued := glue_cutLast openBracket g
  have last := notMem_cutLast openBracket g
  constructor
  · intro read
    unfold parseHost at read
    split at read
    · cases read
    · rename_i eq
      rw [eq, closed_some, List.nil_append, List.singleton_append] at glued
      rw [← glued]
      exact parseIPLiteral_eq_some read last
    · rename_i eq
      rw [eq, closed_none, List.nil_append] at glued
      rw [glued] at last
      split_ifs at read with port
      exact .name last port (Coding.decoded_of_decode read)
  · intro read
    cases read with
    | name bracket port read =>
      have cut := cutLast_glue bracket none
      rw [closed_none, List.nil_append] at cut
      rw [parseHost, cut]
      simp only
      rw [if_pos port]
      exact Coding.decode_of_decoded read
    | @literal hp zp a b port bracket zone valid readHost readZone address =>
      obtain ⟨_, noOpen, noClose, _⟩ := ascii_of_port valid
      have inner : openBracket ∉ hp ++ zp ++ closeBracket :: port := by
        intro mem
        rcases List.mem_append.mp mem with mem | mem
        · exact bracket mem
        · rcases List.mem_cons.mp mem with eq | mem
          · exact absurd eq (by decide)
          · exact noOpen mem
      have first := cutLast_glue inner (some [])
      have second := cutLast_glue noClose (some (hp ++ zp))
      simp only [closed_some, List.nil_append, List.singleton_append, List.append_assoc]
        at first second
      rw [parseHost]
      simp only [List.cons_append, List.append_assoc, first]
      rw [parseIPLiteral, second]
      simp [valid, zone, unescape, Coding.decode_of_decoded (decoded_port valid),
        Coding.decode_of_decoded readHost, Coding.decode_of_decoded readZone, address]

/-- The bytes of a host. -/
def HostByte (c : UInt8) : Prop :=
  0x80 ≤ c.toNat ∨ c = percent ∨ c = space ∨ shouldEscape c .host = false

theorem hostByte_of_stand {c : UInt8} (h : mayStand .host c = true) : HostByte c := by
  unfold mayStand at h
  by_cases high : 0x80 ≤ c.toNat
  · exact .inl high
  · refine .inr (.inr (.inr ?_))
    simpa [show c.toNat < 0x80 by omega] using h

theorem hostByte_of_zone {c : UInt8} (h : mayStand .zone c = true) : HostByte c := by
  have same : shouldEscape c .zone = shouldEscape c .host := by simp [shouldEscape, escapesReserved]
  unfold mayStand at h
  by_cases high : 0x80 ≤ c.toNat
  · exact .inl high
  · refine .inr (.inr (.inr ?_))
    simpa [show c.toNat < 0x80 by omega, same] using h

theorem hostByte_of_decoded {s t : GoString} (h : (coding .host).Decoded s t) :
    ∀ c ∈ t, HostByte c := by
  intro c hc
  rcases h.mem notForm_host hc with ⟨_, _, stand⟩ | escape
  · exact hostByte_of_stand stand
  · change mayEscape .host c = true at escape
    simp only [mayEscape, Bool.or_eq_true, Bool.not_eq_true', decide_eq_false_iff_not,
      decide_eq_true_eq] at escape
    rcases escape with high | rfl
    · exact .inl (by omega)
    · exact .inr (.inl rfl)

theorem hostByte_of_decodedZone {s t : GoString} (h : (coding .zone).Decoded s t) :
    ∀ c ∈ t, HostByte c := by
  intro c hc
  rcases h.mem notForm_zone hc with ⟨_, _, stand⟩ | escape
  · exact hostByte_of_zone stand
  · change mayEscape .zone c = true at escape
    simp only [mayEscape, Bool.or_eq_true, Bool.not_eq_true', decide_eq_true_eq] at escape
    rcases escape with (rfl | rfl) | plain
    · exact .inr (.inl rfl)
    · exact .inr (.inr (.inl rfl))
    · exact .inr (.inr (.inr plain))

theorem ReadsHost.bytes (r : ReadsHost isIPv6 scheme g h) : ∀ c ∈ h, HostByte c := by
  cases r with
  | name bracket port read => exact hostByte_of_decoded read
  | literal bracket zone valid readHost readZone address =>
    have ports := hostByte_of_decoded (decoded_port valid)
    intro c hc
    simp only [List.cons_append, List.mem_cons, List.mem_append] at hc
    rcases hc with rfl | (hc | hc) | rfl | hc
    · exact .inr (.inr (.inr (by decide)))
    · exact hostByte_of_decoded readHost c hc
    · exact hostByte_of_decodedZone readZone c hc
    · exact .inr (.inr (.inr (by decide)))
    · exact ports c hc

/-- A host has fewer ASCII bytes than its text by two for each escape at least. -/
theorem ReadsHost.weight_le (r : ReadsHost isIPv6 scheme g h) :
    Coding.weight h + 2 * g.count percent ≤ Coding.weight g := by
  cases r with
  | name bracket port read => exact read.weight_le notForm_host
  | literal bracket zone valid readHost readZone address =>
    have first := readHost.weight_le notForm_host
    have second := readZone.weight_le notForm_zone
    have third := (decoded_port valid).weight_le notForm_host
    simp only [Coding.weight_append, Coding.weight_cons, List.count_append, List.cons_append,
      List.count_cons, List.append_assoc]
    simp only [show (openBracket == percent) = false by decide,
      show (closeBracket == percent) = false by decide, Bool.false_eq_true, if_false]
    omega

/-- A host written without escapes is read as it is. -/
theorem ReadsHost.literally (r : ReadsHost isIPv6 scheme g h) (noPercent : percent ∉ g) :
    h = g := by
  cases r with
  | name bracket port read => exact read.eq_of_noPercent notForm_host noPercent
  | literal bracket zone valid readHost readZone address =>
    simp only [List.cons_append, List.mem_cons, List.mem_append, not_or] at noPercent
    obtain ⟨_, ⟨noHost, noZone⟩, _⟩ := noPercent
    rw [readHost.eq_of_noPercent notForm_host noHost, readZone.eq_of_noPercent notForm_zone noZone]

/-- A zone is read with a percent sign in front of it. -/
theorem zone_eq_nil {hp zp b : GoString} (zone : cutZone (hp ++ zp) = (hp, zp))
    (readZone : (coding .zone).Decoded zp b) (noPercent : percent ∉ b) : zp = [] := by
  have shape := cutZone_zone (hp ++ zp)
  rw [zone] at shape
  rcases shape with none | ⟨rest, eq⟩
  · exact none
  · simp only at eq
    rw [← eq] at readZone
    cases readZone with
    | escape hh hl may tail =>
      cases hh
      cases hl
      exact absurd List.mem_cons_self noPercent
    | plain ne may tail => exact absurd rfl ne

/-- Where no percent sign was read the host is what the escapes in it say. -/
theorem ReadsHost.unescape (r : ReadsHost isIPv6 scheme g h) (noPercent : percent ∉ h) :
    (coding .host).Decoded g h := by
  cases r with
  | name bracket port read => exact read
  | literal bracket zone valid readHost readZone address =>
    simp only [List.cons_append, List.mem_cons, List.mem_append, not_or] at noPercent
    obtain rfl := zone_eq_nil zone readZone noPercent.2.1.2
    cases readZone
    rw [List.append_nil, List.append_nil]
    exact .plain (k := coding .host) (by decide) (by decide)
      (readHost.append (.plain (k := coding .host) (by decide) (by decide) (decoded_port valid)))

theorem ReadsHost.of_unescape (r : ReadsHost isIPv6 scheme g h) {d : GoString}
    (read : (coding .host).Decoded g d) (noPercent : percent ∉ d) : h = d := by
  suffices percent ∉ h by
    have same := Coding.decode_of_decoded (r.unescape this)
    rw [Coding.decode_of_decoded read] at same
    exact (Option.some.inj same).symm
  cases r with
  | name bracket port read' =>
    have same := Coding.decode_of_decoded read'
    rw [Coding.decode_of_decoded read] at same
    exact Option.some.inj same ▸ noPercent
  | @literal hp zp a b port bracket zone valid readHost readZone address =>
    have shape := cutZone_zone (hp ++ zp)
    rw [zone] at shape
    have first : (coding .host).Decoded (openBracket :: hp) (openBracket :: a) :=
      .plain (k := coding .host) (by decide) (by decide) readHost
    obtain ⟨v, rfl, rest⟩ := first.suffix (u := zp ++ closeBracket :: port)
      (by simpa using read)
    rcases shape with none | ⟨more, eq⟩
    · simp only at none
      subst none
      cases readZone
      intro mem
      simp only [List.cons_append, List.append_nil, List.mem_cons, List.mem_append] at mem
      rcases mem with eq | mem | eq | mem
      · exact absurd eq (by decide)
      · exact noPercent (List.mem_append_left _ (List.mem_cons_of_mem _ mem))
      · exact absurd eq (by decide)
      · exact (ascii_of_port valid).1 mem
    · simp only at eq
      rw [← eq] at rest
      exfalso
      cases rest with
      | escape hh hl may tail =>
        cases hh
        cases hl
        exact noPercent (List.mem_append_right _ List.mem_cons_self)
      | plain ne may tail => exact absurd rfl ne

theorem mem_of_decoded {s t : GoString} (read : (coding .host).Decoded s t) {c : UInt8}
    (ascii : c.toNat < 0x80) (ne : c ≠ percent) (hc : c ∈ t) : c ∈ s := by
  rcases read.mem notForm_host hc with ⟨mem, _⟩ | escape
  · exact mem
  · change mayEscape .host c = true at escape
    simp [mayEscape, ascii, ne] at escape

theorem decoded_again {s t : GoString} (read : (coding .host).Decoded s t)
    (noPercent : percent ∉ t) : (coding .host).Decoded t t := by
  refine Coding.decoded_self notForm_host noPercent fun c hc => ?_
  rcases read.mem notForm_host hc with ⟨_, _, stand⟩ | escape
  · exact stand
  · have ne : c ≠ percent := by
      rintro rfl
      exact noPercent hc
    change mayEscape .host c = true at escape
    have high : ¬ c.toNat < 0x80 := by simpa [mayEscape, ne] using escape
    change mayStand .host c = true
    simp [mayStand, high]

theorem colonPort_web (web : IsWeb scheme) (g : GoString) :
    colonPort scheme g = led colon (cut colon g).2 := by
  unfold colonPort
  rcases web with rfl | rfl <;> rw [if_neg (by decide)]

/-- Reading a host without a percent sign once more changes nothing. -/
theorem ReadsHost.again (web : IsWeb scheme) (r : ReadsHost isIPv6 scheme g h)
    (noPercent : percent ∉ h) : ReadsHost isIPv6 scheme h h := by
  cases r with
  | name bracket port read =>
    refine .name (fun mem => bracket (mem_of_decoded read (by decide) (by decide) mem)) ?_
      (decoded_again read noPercent)
    have glued := glue_cut colon g
    have first := notMem_cut colon g
    rw [colonPort_web web] at port ⊢
    cases hport : (cut colon g).2 with
    | none =>
      rw [hport, led_none, List.append_nil] at glued
      rw [glued] at first
      rw [cut_of_notMem fun mem => first (mem_of_decoded read (by decide) (by decide) mem)]
      rfl
    | some p =>
      rw [hport] at glued port
      rw [← glued, led_some] at read
      obtain ⟨a, v, rfl, left, right⟩ := read.split (by decide) (by decide)
      obtain rfl := right.eq_of_noPercent notForm_host (ascii_of_port port).1
      rw [cut_append_cons fun mem => first (mem_of_decoded left (by decide) (by decide) mem)]
      exact port
  | literal bracket zone valid readHost readZone address =>
    simp only [List.cons_append, List.mem_cons, List.mem_append, not_or] at noPercent
    obtain ⟨_, ⟨noHost, noZone⟩, _⟩ := noPercent
    obtain rfl := zone_eq_nil zone readZone noZone
    cases readZone
    rw [List.append_nil] at bracket address
    have again := decoded_again readHost noHost
    refine ReadsHost.literal ?_ ?_ valid again (Coding.Decoded.nil : (coding .zone).Decoded [] []) ?_
    · rw [List.append_nil]
      exact fun mem => bracket (mem_of_decoded readHost (by decide) (by decide) mem)
    · rw [List.append_nil]
      exact cutZone_of_noPercent noHost
    · rw [List.append_nil]
      exact address

end NetUrl
