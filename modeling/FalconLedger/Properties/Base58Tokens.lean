import FalconLedger.Properties.Base58Decoding

/-!
# Tokens in base 58

What the two codecs make of a token, and of a string, is the same (`base58_codecs_agree`), within
the limits of the fast one: 33 bytes and 52 characters.
-/

namespace FalconLedger

namespace Base58

open Numeral FastCodec

/-! ### The reference decoder -/

theorem mapM_kAlphabetReverse {s : Blob} (h : Valid s) :
    s.mapM kAlphabetReverse = some (s.map digit) := by
  induction s with
  | nil => rfl
  | cons c s ih =>
    obtain ⟨d, hd⟩ := Option.isSome_iff_exists.mp (h c List.mem_cons_self)
    have hdigit : digit c = d := by rw [digit, hd, Option.getD_some]
    rw [List.mapM_cons, hd, ih fun a ha => h a (List.mem_cons_of_mem c ha), List.map_cons, hdigit]
    rfl

theorem mapM_kAlphabetReverse_of_not {s : Blob} (h : ¬Valid s) : s.mapM kAlphabetReverse = none := by
  induction s with
  | nil => exact absurd (List.forall_mem_nil _) h
  | cons c s ih =>
    rw [List.mapM_cons]
    cases hd : kAlphabetReverse c with
    | none => rfl
    | some d =>
      have hrest : ¬Valid s := fun hrest =>
        h (List.forall_mem_cons.mpr ⟨by rw [hd]; rfl, hrest⟩)
      rw [ih hrest]
      rfl

theorem valid_drop {s : Blob} :
    Valid (s.drop (countLeadingZeros (forward 0) s)) ↔ Valid s := by
  rw [countLeadingZeros, drop_length_takeWhile]
  refine ⟨fun h c hc => ?_, fun h c hc => h c ((List.dropWhile_sublist _).mem hc)⟩
  rw [← List.takeWhile_append_dropWhile (p := fun c => c = forward 0) (l := s)] at hc
  rcases List.mem_append.mp hc with hc | hc
  · have hzero : c = forward 0 := by simpa using List.mem_takeWhile_imp hc
    rw [hzero, kAlphabetReverse_forward 0 (by norm_num)]
    rfl
  · exact h c hc

private theorem room_for_bytes : ∀ n ≤ 64, 58 ^ n ≤ 256 ^ (n * 733 / 1000 + 1) := by decide

theorem RefCodec.decodeBase58_eq {s : Blob} (hlen : s.length ≤ 64) :
    RefCodec.decodeBase58 s = if Valid s then decoded s else [] := by
  have hzeros : (s.takeWhile fun c => kAlphabetReverse c = some 0).length =
      countLeadingZeros (forward 0) s := by
    rw [countLeadingZeros]
    congr 2
    exact funext fun c => decide_eq_decide.mpr kAlphabetReverse_eq_zero
  have hrest : (s.drop (countLeadingZeros (forward 0) s)).length ≤ 64 := by
    rw [List.length_drop]
    omega
  rw [RefCodec.decodeBase58, hzeros]
  dsimp only
  rw [if_neg (by omega)]
  split_ifs with hvalid
  · have hlt : ∀ x ∈ (s.drop (countLeadingZeros (forward 0) s)).map digit, x < 58 := by
      intro x hx
      obtain ⟨c, -, rfl⟩ := List.mem_map.mp hx
      exact digit_lt c
    rw [mapM_kAlphabetReverse (valid_drop.mpr hvalid)]
    dsimp only
    rw [RefCodec.strip_convert (by norm_num) (by norm_num) hlt
      (by rw [List.length_map]; exact room_for_bytes _ hrest), decoded, value_map_digit s]
  · rw [mapM_kAlphabetReverse_of_not (mt valid_drop.mp hvalid)]

/-! ### There and back -/

theorem forward_eq_zero {d : ℕ} (hd : d < 58) (h : forward d = forward 0) : d = 0 := by
  have hd' := kAlphabetReverse_forward d hd
  rw [h, kAlphabetReverse_forward 0 (by norm_num), Option.some_inj] at hd'
  exact hd'.symm

theorem digit_forward {d : ℕ} (hd : d < 58) : digit (forward d) = d := by
  rw [digit, kAlphabetReverse_forward d hd, Option.getD_some]

theorem takeWhile_replicate_append {α : Type} [DecidableEq α] {zero : α} {l : List α} (n : ℕ)
    (h : ∀ c, l.head? = some c → c ≠ zero) :
    ((List.replicate n zero ++ l).takeWhile fun c => c = zero).length = n := by
  induction n with
  | zero =>
    cases l with
    | nil => rfl
    | cons c l =>
      rw [List.replicate_zero, List.nil_append, List.takeWhile_cons,
        if_neg (by simpa using h c rfl)]
      rfl
  | succ n ih =>
    rw [List.replicate_succ, List.cons_append, List.takeWhile_cons, if_pos (decide_eq_true rfl),
      List.length_cons, ih]

theorem numeral_head {b n c : ℕ} (h : (numeral b n).head? = some c) : c ≠ 0 := by
  rw [numeral, List.head?_reverse] at h
  obtain ⟨ds, hds⟩ := List.getLast?_eq_some_iff.mp h
  have hne : n ≠ 0 := Nat.digits_ne_nil_iff_ne_zero.mp (by rw [hds]; simp)
  have hlast := Nat.getLast_digit_ne_zero b hne
  simpa [hds] using hlast

theorem countLeadingZeros_encoded (m : Blob) :
    countLeadingZeros (forward 0) (encoded m) = countLeadingZeros 0 m := by
  refine takeWhile_replicate_append _ fun c hc hzero => ?_
  rw [List.head?_map, Option.map_eq_some_iff] at hc
  obtain ⟨d, hd, rfl⟩ := hc
  have hlt := numeral_lt (b := 58) (by norm_num) (List.mem_of_mem_head? hd)
  exact numeral_head hd (forward_eq_zero hlt hzero)

theorem map_digit_encoded (m : Blob) :
    (encoded m).map digit = List.replicate (countLeadingZeros 0 m) 0 ++
      numeral 58 (value 256 (digits m)) := by
  rw [encoded, List.map_append, List.map_replicate, digit_forward (by norm_num), List.map_map]
  refine congrArg _ ((List.map_congr_left fun d hd => ?_).trans (List.map_id _))
  exact digit_forward (numeral_lt (by norm_num) hd)

theorem valid_encoded (m : Blob) : Valid (encoded m) := by
  intro c hc
  rcases List.mem_append.mp hc with hc | hc
  · rw [List.eq_of_mem_replicate hc, kAlphabetReverse_forward 0 (by norm_num)]
    rfl
  · obtain ⟨d, hd, rfl⟩ := List.mem_map.mp hc
    rw [kAlphabetReverse_forward d (numeral_lt (by norm_num) hd)]
    rfl

theorem decoded_encoded (m : Blob) : decoded (encoded m) = m := by
  have hzeros : ∀ x ∈ List.replicate (countLeadingZeros 0 m) 0, x = 0 := fun x hx =>
    List.eq_of_mem_replicate hx
  have hfirst : List.replicate (countLeadingZeros 0 m) 0 = m.takeWhile fun c => c = 0 :=
    (List.eq_replicate_iff.mpr
      ⟨rfl, fun c hc => by simpa using List.mem_takeWhile_imp hc⟩).symm
  rw [decoded, countLeadingZeros_encoded, map_digit_encoded, value_append_of_zero hzeros,
    value_numeral, ← strip_eq_numeral (by norm_num) (digits_lt m), ← digits_dropWhile,
    bytes_digits, hfirst, List.takeWhile_append_dropWhile]

private theorem room_for_characters : ∀ n ≤ 38, 256 ^ n ≤ 58 ^ (n + 14) := by decide

theorem length_encoded_le {m : Blob} (h : m.length ≤ 38) : (encoded m).length ≤ 52 := by
  have hzeros : countLeadingZeros 0 m ≤ m.length := (List.takeWhile_sublist _).length_le
  have hrest : (m.drop (countLeadingZeros 0 m)).length = m.length - countLeadingZeros 0 m :=
    List.length_drop
  have hvalue : value 256 (digits m) < 58 ^ (m.length - countLeadingZeros 0 m + 14) := by
    rw [← value_strip, ← digits_drop_zeros, ← hrest]
    refine (value_lt (by norm_num) (digits_lt _)).trans_le ?_
    rw [length_digits]
    exact room_for_characters _ (by omega)
  have hlen := (length_numeral_le (b := 58) (by norm_num)).mpr hvalue
  rw [encoded, List.length_append, List.length_replicate, List.length_map]
  omega

/-! ### Tokens -/

section Tokens

variable {checksum : Checksum} {type : TokenType}

theorem length_layout (token : Blob) : (layout checksum type token).length = token.length + 5 := by
  rw [layout, List.length_append, List.length_cons, (checksum _).property]

theorem RefCodec.encodeBase58Token_eq (token : Blob) :
    RefCodec.encodeBase58Token checksum type token = encoded (layout checksum type token) := by
  rw [RefCodec.encodeBase58Token]
  refine RefCodec.encodeBase58_eq _ ?_
  rw [length_layout]
  omega

theorem FastCodec.encodeBase58TokenTo_eq {token : Blob} (hpos : 1 ≤ token.length)
    (hle : token.length ≤ 33) :
    FastCodec.encodeBase58TokenTo checksum type token 128 =
      .ok (encoded (layout checksum type token)) := by
  rw [FastCodec.encodeBase58TokenTo]
  rw [check_of (by omega), ok_bind, check_of (List.length_pos_iff.mp hpos), ok_bind,
    b256ToB58Be_eq (by rw [length_layout]; omega)]

/-- What is left of the bytes that a string stands for, if they are those of a token. -/
def unwrap (checksum : Checksum) (type : TokenType) (ret : Blob) : Blob :=
  if 6 ≤ ret.length ∧ ret.head? = some type.toByte ∧
      (checksum (ret.take (ret.length - 4))).val = ret.drop (ret.length - 4) then
    (ret.drop 1).take (ret.length - 1 - 4)
  else []

theorem unwrap_layout (token : Blob) (hpos : 1 ≤ token.length) :
    unwrap checksum type (layout checksum type token) = token := by
  have hcut : (layout checksum type token).length - 4 = (type.toByte :: token).length := by
    rw [length_layout, List.length_cons]
    omega
  have htake : (layout checksum type token).take ((layout checksum type token).length - 4) =
      type.toByte :: token := by
    rw [hcut, layout, List.take_left]
  have hdrop : (layout checksum type token).drop ((layout checksum type token).length - 4) =
      (checksum (type.toByte :: token)).val := by
    rw [hcut, layout, List.drop_left]
  rw [unwrap, htake, hdrop, length_layout, if_pos ⟨by omega, rfl, rfl⟩, layout, List.cons_append,
    List.drop_one, List.tail_cons]
  have hlen : token.length + 5 - 1 - 4 = token.length := by omega
  rw [hlen, List.take_left]

theorem RefCodec.decodeBase58Token_eq {s : Blob} (hlen : s.length ≤ 64) :
    RefCodec.decodeBase58Token checksum s type =
      if Valid s then unwrap checksum type (decoded s) else [] := by
  rw [RefCodec.decodeBase58Token, RefCodec.decodeBase58_eq hlen, unwrap]
  by_cases hvalid : Valid s
  · rw [if_pos hvalid, if_pos hvalid]
    split_ifs <;> first | rfl | omega | simp_all
  · rw [if_neg hvalid, if_neg hvalid, if_pos (by simp)]

theorem FastCodec.decodeBase58Token_eq {s : Blob} (hlen : s.length ≤ 52) :
    FastCodec.decodeBase58Token checksum s type =
      if Valid s then unwrap checksum type (decoded s) else [] := by
  have hbound := length_decoded_le s
  rw [FastCodec.decodeBase58Token, FastCodec.decodeBase58TokenTo]
  rcases b58ToB256Be_eq hlen with ⟨hok, hvalid⟩ | ⟨herror, hinvalid⟩
  · rw [hok, ok_bind, if_pos hvalid, unwrap]
    dsimp only
    by_cases hlong : 6 ≤ (decoded s).length
    · by_cases htype : (decoded s).head? = some type.toByte
      · by_cases hsum : (checksum ((decoded s).take ((decoded s).length - 4))).val =
            (decoded s).drop ((decoded s).length - 4)
        · rw [check_of hlong, ok_bind, check_of htype, ok_bind, check_of hsum, ok_bind,
            check_of (by omega), ok_bind, if_pos ⟨hlong, htype, hsum⟩]
          rfl
        · rw [check_of hlong, ok_bind, check_of htype, ok_bind, check, if_neg hsum,
            if_neg fun h => hsum h.2.2]
          rfl
      · rw [check_of hlong, ok_bind, check, if_neg htype, if_neg fun h => htype h.2.1]
        rfl
    · rw [check, if_neg hlong, if_neg fun h => hlong h.1]
      rfl
  · rw [herror, if_neg hinvalid]
    rfl

theorem FastCodec.decode_encode {token : Blob} (hpos : 1 ≤ token.length) (hle : token.length ≤ 33) :
    FastCodec.decodeBase58Token checksum (FastCodec.encodeBase58Token checksum type token) type =
      token := by
  have hlayout : (layout checksum type token).length ≤ 38 := by
    rw [length_layout]
    omega
  rw [FastCodec.encodeBase58Token, FastCodec.encodeBase58TokenTo_eq hpos hle, orEmpty,
    FastCodec.decodeBase58Token_eq (length_encoded_le hlayout), if_pos (valid_encoded _),
    decoded_encoded, unwrap_layout token hpos]

theorem RefCodec.decode_encode {token : Blob} (hpos : 1 ≤ token.length) (hle : token.length ≤ 33) :
    RefCodec.decodeBase58Token checksum (RefCodec.encodeBase58Token checksum type token) type =
      token := by
  have hlayout : (layout checksum type token).length ≤ 38 := by
    rw [length_layout]
    omega
  rw [RefCodec.encodeBase58Token_eq, RefCodec.decodeBase58Token_eq
    ((length_encoded_le hlayout).trans (by norm_num)), if_pos (valid_encoded _), decoded_encoded,
    unwrap_layout token hpos]

/-- For the tokens that the fast codec is made for, both codecs write the same string, and it comes
back; for the strings it is made for, both read the same. The fast codec leaves none of its arrays,
and what stops its conversion is a character that is not in the alphabet, or nothing. -/
theorem base58_codecs_agree (checksum : Checksum) (type : TokenType) :
    (∀ token : Blob, 1 ≤ token.length → token.length ≤ 33 →
      FastCodec.encodeBase58TokenTo checksum type token 128 =
        .ok (RefCodec.encodeBase58Token checksum type token) ∧
      FastCodec.encodeBase58Token checksum type token =
        RefCodec.encodeBase58Token checksum type token ∧
      FastCodec.decodeBase58Token checksum
        (FastCodec.encodeBase58Token checksum type token) type = token ∧
      RefCodec.decodeBase58Token checksum
        (RefCodec.encodeBase58Token checksum type token) type = token) ∧
    ∀ s : Blob, s.length ≤ 52 →
      ((∃ r, FastCodec.b58ToB256Be s 64 = .ok r) ∨
        FastCodec.b58ToB256Be s 64 = .error (.code .invalidEncodingChar) ∧
          ∃ c ∈ s, kAlphabetReverse c = none) ∧
      FastCodec.decodeBase58Token checksum s type =
        RefCodec.decodeBase58Token checksum s type := by
  refine ⟨fun token hpos hle => ⟨?_, ?_, FastCodec.decode_encode hpos hle,
    RefCodec.decode_encode hpos hle⟩, fun s hlen => ⟨?_, ?_⟩⟩
  · rw [FastCodec.encodeBase58TokenTo_eq hpos hle, RefCodec.encodeBase58Token_eq]
  · rw [FastCodec.encodeBase58Token, FastCodec.encodeBase58TokenTo_eq hpos hle, orEmpty,
      RefCodec.encodeBase58Token_eq]
  · rcases b58ToB256Be_eq hlen with ⟨hok, -⟩ | ⟨herror, hinvalid⟩
    · exact .inl ⟨_, hok⟩
    · refine .inr ⟨herror, ?_⟩
      by_contra hnone
      refine hinvalid fun c hc => Option.isSome_iff_ne_none.mpr fun hrev => hnone ⟨c, hc, hrev⟩
  · rw [FastCodec.decodeBase58Token_eq hlen,
      RefCodec.decodeBase58Token_eq (hlen.trans (by norm_num))]

private def zeroChecksum : Checksum := fun _ => ⟨[0, 0, 0, 0], rfl⟩

theorem base58_codecs_agree_bytes :
    FastCodec.decodeBase58Token zeroChecksum
        (FastCodec.encodeBase58Token zeroChecksum .accountID (0 :: List.replicate 19 167)) .accountID =
          0 :: List.replicate 19 167 ∧
      FastCodec.decodeBase58Token zeroChecksum [forward 57, 0] .accountID =
        RefCodec.decodeBase58Token zeroChecksum [forward 57, 0] .accountID :=
  ⟨((base58_codecs_agree zeroChecksum .accountID).1 (0 :: List.replicate 19 167) (by decide)
      (by decide)).2.2.1,
    ((base58_codecs_agree zeroChecksum .accountID).2 [forward 57, 0] (by decide)).2⟩

/-! ### Public keys -/

variable {pk : PublicKey}

theorem toBase58_of_long (hlong : 33 < pk.slice.length) : toBase58 checksum type pk = [] := by
  rw [toBase58, FastCodec.encodeBase58Token, FastCodec.encodeBase58TokenTo]
  by_cases hbuf : pk.slice.length ≤ 128 - 5
  · have hne : pk.slice ≠ [] := List.length_pos_iff.mp (by omega)
    rw [check_of hbuf, ok_bind, check_of hne, ok_bind, b256ToB58Be, check,
      if_neg (by rw [length_layout]; omega)]
    rfl
  · rw [check, if_neg hbuf]
    rfl

theorem parseBase58_nil : parseBase58 checksum type [] = none := by
  have hempty : FastCodec.decodeBase58Token checksum [] type = [] := by
    rw [FastCodec.decodeBase58Token_eq (by norm_num)]
    split_ifs
    · rfl
    · rfl
  rw [parseBase58, hempty]
  rfl

theorem slice_pos (pk : PublicKey) : 1 ≤ pk.slice.length := by
  refine List.length_pos_iff.mpr fun hnil => ?_
  have htype := pk.isSome_type
  rw [hnil] at htype
  cases htype

theorem parseBase58_toBase58 (hshort : pk.slice.length ≤ 33) :
    parseBase58 checksum type (toBase58 checksum type pk) = some pk := by
  have hsigning : (signingPubKeyType pk.slice).isNone = false := by
    obtain ⟨t, ht⟩ := Option.isSome_iff_exists.mp pk.isSome_type
    rw [signingPubKeyType, ht]
    rfl
  rw [parseBase58, toBase58, FastCodec.decode_encode (slice_pos pk) hshort, hsigning, if_neg Bool.false_ne_true, PublicKey.ofSlice?_slice]

/-- The text of the key gives the key back, and is the text of no other key. -/
def Faithful (checksum : Checksum) (type : TokenType) (pk : PublicKey) : Prop :=
  parseBase58 checksum type (toBase58 checksum type pk) = some pk ∧
    ∀ pk', toBase58 checksum type pk' = toBase58 checksum type pk → pk' = pk

/-- The text form of a key is faithful exactly if the key has no more than 33 bytes. -/
theorem key_text_faithful_iff (checksum : Checksum) (type : TokenType) (pk : PublicKey) :
    Faithful checksum type pk ↔ pk.slice.length ≤ 33 := by
  constructor
  · rintro ⟨hparse, -⟩
    by_contra hlong
    rw [toBase58_of_long (by omega), parseBase58_nil] at hparse
    cases hparse
  · intro hshort
    refine ⟨parseBase58_toBase58 hshort, fun pk' htext => ?_⟩
    have hparse : parseBase58 checksum type (toBase58 checksum type pk') = some pk :=
      htext ▸ parseBase58_toBase58 hshort
    by_cases hshort' : pk'.slice.length ≤ 33
    · rw [parseBase58_toBase58 hshort', Option.some_inj] at hparse
      exact hparse
    · rw [toBase58_of_long (by omega), parseBase58_nil] at hparse
      cases hparse

/-- A Falcon-512 key that is all `fill` after its prefix. -/
private def falconKey (fill : UInt8) : PublicKey where
  slice := kFalcon512Prefix :: List.replicate 897 fill
  isSome_type := by
    have hlength : (kFalcon512Prefix :: List.replicate 897 fill).length ≠ 33 := by
      rw [List.length_cons, List.length_replicate]
      norm_num
    rw [publicKeyType, if_neg fun h => hlength h.1, if_neg fun h => hlength h.1, pqPublicKeyType,
      List.head?_cons, if_pos rfl]
    rfl

theorem falcon_keys_without_text :
    (falconKey 0).slice.length = 898 ∧ (falconKey 1).slice.length = 898 ∧
      falconKey 0 ≠ falconKey 1 ∧
      toBase58 zeroChecksum .nodePublic (falconKey 0) = [] ∧
      toBase58 zeroChecksum .nodePublic (falconKey 1) = [] ∧
      ¬Faithful zeroChecksum .nodePublic (falconKey 0) := by
  have hlength : ∀ fill, (falconKey fill).slice.length = 898 := by
    intro fill
    rw [falconKey, List.length_cons, List.length_replicate]
  have htext : ∀ fill, toBase58 zeroChecksum .nodePublic (falconKey fill) = [] := fun fill =>
    toBase58_of_long (by rw [hlength]; norm_num)
  have hne : falconKey 0 ≠ falconKey 1 := by
    intro h
    have htail := (List.cons.inj (congrArg PublicKey.slice h)).2
    have hmem : (0 : UInt8) ∈ List.replicate 897 (1 : UInt8) :=
      htail ▸ List.mem_replicate.mpr ⟨by norm_num, rfl⟩
    exact absurd (List.eq_of_mem_replicate hmem) (by decide)
  refine ⟨hlength 0, hlength 1, hne, htext 0, htext 1, fun hfaithful => ?_⟩
  exact hne (hfaithful.2 (falconKey 1) (by rw [htext, htext])).symm

end Tokens

end Base58

end FalconLedger
