import Bitmark.Base.CString
import Bitmark.Lib.Regroup

/-!
# Bits in text

What Base64 and Base32 of `src/util.cpp:554–873` share. A decoder reads letters until one is none,
regroups their bits into bytes, and judges the padding that follows by its mode. A coding is such a
decoder with the encoder whose texts it reads.
-/

namespace Bitmark

open Regroup

/-- The variables of an encoder. -/
structure Encoder where
  strRet : Bytes
  mode : ℕ
  left : ℕ
  deriving DecidableEq

/-- The variables of a decoder. -/
structure Decoder where
  vchRet : Bytes
  mode : ℕ
  left : ℕ
  deriving DecidableEq

/-- The loop of a decoder, `src/util.cpp:633–662` and `src/util.cpp:786–837`: the variables after
the letters, and the text from the first other character on. -/
def decodeLetters (table : UInt8 → Option ℕ) (step : Decoder → ℕ → Decoder) (s : Decoder) :
    Bytes → Decoder × Bytes
  | [] => (s, [])
  | c :: p => match table c with
    | none => (s, c :: p)
    | some dec => decodeLetters table step (step s dec) p

/-- `left || p[0] != '=' || … || table[p[n]] != -1`: the check for `n` characters of padding. -/
def badPadding (table : UInt8 → Option ℕ) (left n : ℕ) (p : Bytes) : Bool :=
  left ≠ 0 || (List.range n).any (fun i ↦ p.getD i 0 ≠ 0x3d) || (table (p.getD n 0)).isSome

/-- An encoder of `k` bits a letter has taken `xs`: what is pending stands in `left`, moved up to
where the bits of a letter begin. -/
def EncodesBits (k : ℕ) (letter : ℕ → UInt8) (bits : ℕ → Option ℕ) (xs : List ℕ) (s : Encoder) : Prop :=
  ∃ r rest ys, bits s.mode = some r ∧ Carries 8 k r rest xs ys ∧ s.strRet = ys.map letter ∧
    (r ≠ 0 → s.left = rest * 2 ^ (k - r))

/-- A decoder of `k` bits a letter has taken `ds`: what is pending stands in `left`. -/
def DecodesBits (k : ℕ) (bits : ℕ → Option ℕ) (ds : List ℕ) (s : Decoder) : Prop :=
  ∃ r rest, bits s.mode = some r ∧ Carries k 8 r rest ds (s.vchRet.map UInt8.toNat) ∧
    (r ≠ 0 → s.left = rest)

section Steps

variable {k r rest x y mode left : ℕ} {letter : ℕ → UInt8} {bits : ℕ → Option ℕ} {xs ys : List ℕ}

/-- A letter is written and `r` bits are left. -/
theorem encodesBits_one (h : Carries 8 k (r + k) rest xs ys) (hbits : bits mode = some r)
    (hx : x = rest / 2 ^ r) (hleft : r ≠ 0 → left = rest % 2 ^ r * 2 ^ (k - r)) :
    EncodesBits k letter bits xs ⟨ys.map letter ++ [letter x], mode, left⟩ :=
  ⟨r, _, _, hbits, h.pop, by rw [hx, List.map_append]; rfl, hleft⟩

/-- Two letters are written and `r` bits are left. -/
theorem encodesBits_two (h : Carries 8 k (r + k + k) rest xs ys) (hbits : bits mode = some r)
    (hx : x = rest / 2 ^ (r + k)) (hy : y = rest % 2 ^ (r + k) / 2 ^ r)
    (hleft : r ≠ 0 → left = rest % 2 ^ (r + k) % 2 ^ r * 2 ^ (k - r)) :
    EncodesBits k letter bits xs ⟨ys.map letter ++ [letter x, letter y], mode, left⟩ :=
  ⟨r, _, _, hbits, h.pop.pop, by rw [hx, hy, List.map_append, List.map_append, List.append_assoc]; rfl,
    hleft⟩

/-- The bits of a letter are kept. -/
theorem decodesBits_none {vch : Bytes} (h : Carries k 8 r rest xs (vch.map UInt8.toNat))
    (hbits : bits mode = some r) (hleft : r ≠ 0 → left = rest) :
    DecodesBits k bits xs ⟨vch, mode, left⟩ :=
  ⟨r, rest, hbits, h, hleft⟩

/-- A byte is written and `r` bits are left. -/
theorem decodesBits_one {vch : Bytes} (h : Carries k 8 (r + 8) rest xs (vch.map UInt8.toNat))
    (hbits : bits mode = some r) (hx : x = rest / 2 ^ r) (hleft : r ≠ 0 → left = rest % 2 ^ r) :
    DecodesBits k bits xs ⟨vch ++ [UInt8.ofNat x], mode, left⟩ := by
  refine ⟨r, _, hbits, ?_, hleft⟩
  have hlt : rest / 2 ^ r < 2 ^ 8 := h.pop.lt_right _ (by simp)
  have hbyte : (UInt8.ofNat (rest / 2 ^ r)).toNat = rest / 2 ^ r := UInt8.toNat_ofNat_of_lt hlt
  rw [List.map_append, List.map_singleton, hx, hbyte]
  exact h.pop

theorem or_low {s : ℕ} (h : x < 2 ^ s) : y * 2 ^ s ||| x = y * 2 ^ s + x := by
  rw [Nat.mul_comm, Nat.two_pow_add_eq_or_of_lt h]

/-- A letter below the bits that are kept. -/
theorem shiftLeft_or_low {s : ℕ} (h : x < 2 ^ s) : y <<< s ||| x = y * 2 ^ s + x := by
  rw [Nat.shiftLeft_eq]
  exact or_low h

end Steps

/-- The text goes on with no letter. -/
def NoLetter (table : UInt8 → Option ℕ) (p : Bytes) : Prop := ∀ c ∈ p.head?, table c = none

theorem encodesBits_foldl {k : ℕ} {letter : ℕ → UInt8} {bits : ℕ → Option ℕ}
    {step : Encoder → UInt8 → Encoder} (hstart : bits 0 = some 0)
    (hstep : ∀ {xs s} (enc : UInt8), EncodesBits k letter bits xs s →
      EncodesBits k letter bits (xs ++ [enc.toNat]) (step s enc)) (bs : Bytes) :
    EncodesBits k letter bits (bs.map UInt8.toNat) (bs.foldl step ⟨[], 0, 0⟩) := by
  induction bs using List.reverseRecOn with
  | nil => exact ⟨0, 0, [], hstart, carries_nil 8 k, rfl, fun h ↦ absurd rfl h⟩
  | append_singleton bs enc ih =>
    rw [List.foldl_concat, List.map_append]
    exact hstep enc ih

theorem EncodesBits.packs_zero {k : ℕ} {letter : ℕ → UInt8} {bits : ℕ → Option ℕ} {xs : List ℕ}
    {s : Encoder} (h : EncodesBits k letter bits xs s) (hbits : bits s.mode = some 0) (hk : 0 < k) :
    ∃ ds, Packs 8 k 0 xs ds ∧ s.strRet = ds.map letter := by
  obtain ⟨r, rest, ys, hr, hcarries, hret, hleft⟩ := h
  obtain rfl : 0 = r := Option.some.inj (hbits.symm.trans hr)
  exact ⟨ys, hcarries.packs_zero hk, hret⟩

/-- With bits pending, `left` is the last letter. -/
theorem EncodesBits.packs {k r : ℕ} {letter : ℕ → UInt8} {bits : ℕ → Option ℕ} {xs : List ℕ}
    {s : Encoder} (h : EncodesBits k letter bits xs s) (hbits : bits s.mode = some r) (hpos : 0 < r)
    (hlt : r < k) : ∃ ds, Packs 8 k (k - r) xs ds ∧ s.strRet ++ [letter s.left] = ds.map letter := by
  obtain ⟨r', rest, ys, hr, hcarries, hret, hleft⟩ := h
  obtain rfl : r = r' := Option.some.inj (hbits.symm.trans hr)
  refine ⟨_, hcarries.packs hpos hlt, ?_⟩
  rw [hret, hleft hpos.ne', List.map_append]
  rfl

theorem decodesBits_foldl {k : ℕ} {bits : ℕ → Option ℕ} {step : Decoder → ℕ → Decoder}
    (hstart : bits 0 = some 0)
    (hstep : ∀ {ds s d}, d < 2 ^ k → DecodesBits k bits ds s → DecodesBits k bits (ds ++ [d]) (step s d))
    {ds : List ℕ} (hds : ∀ d ∈ ds, d < 2 ^ k) : DecodesBits k bits ds (ds.foldl step ⟨[], 0, 0⟩) := by
  induction ds using List.reverseRecOn with
  | nil => exact ⟨0, 0, hstart, carries_nil k 8, fun h ↦ absurd rfl h⟩
  | append_singleton ds d ih =>
    rw [List.foldl_concat]
    exact hstep (hds d (by simp)) (ih fun e he ↦ hds e (List.mem_append_left _ he))

/-- The loop takes the letters in front. -/
theorem decodeLetters_append {table : UInt8 → Option ℕ} {step : Decoder → ℕ → Decoder}
    {cs rest : Bytes} {ds : List ℕ} (hcs : cs.map table = ds.map some) (hrest : NoLetter table rest)
    (s : Decoder) : decodeLetters table step s (cs ++ rest) = (ds.foldl step s, rest) := by
  induction cs generalizing ds s with
  | nil =>
    obtain rfl : ds = [] := by simpa using hcs.symm
    cases rest with
    | nil => rfl
    | cons c rest =>
      rw [List.nil_append, decodeLetters, hrest c rfl]
      rfl
  | cons c cs ih =>
    cases ds with
    | nil => exact absurd hcs nofun
    | cons d ds =>
      obtain ⟨hc, hcs⟩ := List.cons.inj hcs
      rw [List.cons_append, decodeLetters, hc]
      exact ih hcs (step s d)

/-- Every text is letters and a rest that begins with none. -/
theorem exists_letters (table : UInt8 → Option ℕ) (p : Bytes) :
    ∃ (cs : Bytes) (ds : List ℕ) (rest : Bytes), p = cs ++ rest ∧ cs.map table = ds.map some ∧
      NoLetter table rest := by
  induction p with
  | nil => exact ⟨[], [], [], rfl, rfl, nofun⟩
  | cons c p ih =>
    cases hc : table c with
    | none => exact ⟨[], [], c :: p, rfl, rfl, fun d hd ↦ Option.some.inj hd ▸ hc⟩
    | some d =>
      obtain ⟨cs, ds, rest, rfl, hcs, hrest⟩ := ih
      exact ⟨c :: cs, d :: ds, rest, rfl, by rw [List.map_cons, List.map_cons, hc, hcs], hrest⟩

theorem forall_getD_iff {n : ℕ} {p : Bytes} {c : UInt8} (hc : c ≠ 0) :
    (∀ i, i < n → p.getD i 0 = c) ↔ ∃ rest, p = List.replicate n c ++ rest := by
  constructor
  · intro h
    induction n generalizing p with
    | zero => exact ⟨p, rfl⟩
    | succ n ih =>
      cases p with
      | nil => exact absurd (h 0 (Nat.succ_pos n)).symm hc
      | cons d p =>
        obtain ⟨rest, rfl⟩ := ih fun i hi ↦ h (i + 1) (Nat.succ_lt_succ hi)
        obtain rfl : d = c := h 0 (Nat.succ_pos n)
        exact ⟨rest, rfl⟩
  · rintro ⟨rest, rfl⟩ i hi
    rw [List.getD_append _ _ _ _ (by rwa [List.length_replicate]), List.getD_replicate _ hi]

theorem badPadding_eq_false {table : UInt8 → Option ℕ} (hzero : table 0 = none) {left n : ℕ}
    {p : Bytes} : badPadding table left n p = false ↔
      left = 0 ∧ ∃ rest, p = List.replicate n 0x3d ++ rest ∧ NoLetter table rest := by
  have hpad := @forall_getD_iff n p 0x3d (by decide)
  have hafter : ∀ rest, table ((List.replicate n 0x3d ++ rest).getD n 0) = none ↔
      NoLetter table rest := by
    intro rest
    rw [List.getD_append_right _ _ _ _ (by rw [List.length_replicate]), List.length_replicate,
      Nat.sub_self]
    cases rest with
    | nil => exact iff_of_true hzero nofun
    | cons c rest => exact ⟨fun h d hd ↦ Option.some.inj hd ▸ h, fun h ↦ h c rfl⟩
  rw [badPadding, Bool.or_eq_false_iff, Bool.or_eq_false_iff, decide_eq_false_iff_not, not_not,
    List.any_eq_false, Option.isSome_eq_false_iff, Option.isNone_iff_eq_none, and_assoc]
  refine and_congr_right fun _ ↦ ⟨?_, ?_⟩
  · rintro ⟨hall, hnext⟩
    obtain ⟨rest, rfl⟩ := hpad.mp fun i hi ↦ by simpa using hall i (List.mem_range.mpr hi)
    exact ⟨rest, rfl, (hafter rest).mp hnext⟩
  · rintro ⟨rest, rfl, hrest⟩
    refine ⟨fun i hi ↦ ?_, (hafter rest).mpr hrest⟩
    simpa using hpad.mpr ⟨rest, rfl⟩ i (List.mem_range.mp hi)

/-- The check in a mode with `r` bits pending. -/
theorem badPadding_iff {table : UInt8 → Option ℕ} (hzero : table 0 = none) {k r left n : ℕ}
    {p : Bytes} (hpos : 0 < r) (hr : r < k) : badPadding table left n p = false ↔
      r < k ∧ (r ≠ 0 → left = 0) ∧ ∃ rest, p = List.replicate n 0x3d ++ rest ∧ NoLetter table rest := by
  rw [badPadding_eq_false hzero]
  simp [hpos.ne', hr]

/-! ### Tables -/

theorem forall_byte {P : UInt8 → Prop} (h : ∀ n < 256, P (UInt8.ofNat n)) (c : UInt8) : P c :=
  UInt8.ofNat_toNat (x := c) ▸ h c.toNat c.toNat_lt

/-- A table that knows the letters, and nothing else once case is folded. -/
theorem table_iff_of_letters {k : ℕ} {letter : ℕ → UInt8} {table : UInt8 → Option ℕ}
    {fold : UInt8 → UInt8} (hletter : ∀ d < 2 ^ k, table (letter d) = some d)
    (htable : ∀ c, table (fold c) = table c ∧ ∀ d ∈ table c, d < 2 ^ k ∧ fold c = letter d)
    (c : UInt8) (d : ℕ) : table c = some d ↔ d < 2 ^ k ∧ fold c = letter d := by
  constructor
  · intro h
    exact (htable c).2 d h
  · rintro ⟨hd, hfold⟩
    rw [← (htable c).1, hfold]
    exact hletter d hd

/-! ### Codings -/

/-- A coding of `k` bits a letter: `fold` maps the characters that stand for one letter to it, `bits`
gives the bits that are pending in a mode, and `equals` the padding for a number of fill bits. -/
structure Coding (k : ℕ) where
  letter : ℕ → UInt8
  table : UInt8 → Option ℕ
  fold : UInt8 → UInt8
  bits : ℕ → Option ℕ
  equals : ℕ → ℕ
  encode : Bytes → Bytes
  step : Decoder → ℕ → Decoder
  invalid : Decoder → Bytes → Bool
  width : 1 ≤ k ∧ k ≤ 8
  table_iff : ∀ c d, table c = some d ↔ d < 2 ^ k ∧ fold c = letter d
  fold_letter : ∀ d < 2 ^ k, fold (letter d) = letter d
  fold_pad : ∀ c, fold c = 0x3d ↔ c = 0x3d
  table_pad : table 0x3d = none
  bits_lt : ∀ mode r, bits mode = some r → r < 8
  start : bits 0 = some 0
  encode_eq : ∀ bs, ∃ pad ds, Packs 8 k pad (bs.map UInt8.toNat) ds ∧
    encode bs = ds.map letter ++ List.replicate (equals pad) 0x3d
  step_decodes : ∀ {ds s d}, d < 2 ^ k → DecodesBits k bits ds s → DecodesBits k bits (ds ++ [d]) (step s d)
  invalid_iff : ∀ {s p r}, bits s.mode = some r → NoLetter table p → (invalid s p = false ↔
    r < k ∧ (r ≠ 0 → s.left = 0) ∧
      ∃ rest, p = List.replicate (equals r) 0x3d ++ rest ∧ NoLetter table rest)

namespace Coding

variable {k : ℕ}

/-- The decoder: the bytes, and whether the text is invalid. -/
def decode (C : Coding k) (p : Bytes) : Bytes × Bool :=
  let r := decodeLetters C.table C.step ⟨[], 0, 0⟩ p
  (r.1.vchRet, C.invalid r.1 r.2)

/-- The characters that stand for given letters. -/
theorem letters_iff (C : Coding k) {cs : Bytes} {ds : List ℕ} : cs.map C.table = ds.map some ↔
    (∀ d ∈ ds, d < 2 ^ k) ∧ cs.map C.fold = ds.map C.letter := by
  induction cs generalizing ds with
  | nil =>
    cases ds with
    | nil => exact iff_of_true rfl ⟨nofun, rfl⟩
    | cons d ds => exact iff_of_false nofun fun h ↦ absurd h.2 nofun
  | cons c cs ih =>
    cases ds with
    | nil => exact iff_of_false nofun fun h ↦ absurd h.2 nofun
    | cons d ds =>
      simp only [List.map_cons, List.cons.injEq, ih, C.table_iff, List.forall_mem_cons]
      tauto

theorem fold_eq_replicate (C : Coding k) {es : Bytes} {n : ℕ} :
    es.map C.fold = List.replicate n 0x3d ↔ es = List.replicate n 0x3d := by
  simp only [List.eq_replicate_iff, List.length_map, List.forall_mem_map, C.fold_pad]

theorem noLetter_replicate (C : Coding k) (n : ℕ) {rest : Bytes} (h : NoLetter C.table rest) :
    NoLetter C.table (List.replicate n 0x3d ++ rest) := by
  cases n with
  | zero => exact h
  | succ n => exact fun c hc ↦ Option.some.inj hc ▸ C.table_pad

/-- What a text decodes to, from the letters and the padding in front of it. -/
theorem decode_append (C : Coding k) {cs rest : Bytes} {ds : List ℕ}
    (hcs : cs.map C.table = ds.map some) (hrest : NoLetter C.table rest) :
    ∃ s, C.decode (cs ++ rest) = (s.vchRet, C.invalid s rest) ∧ DecodesBits k C.bits ds s := by
  have hds := ((C.letters_iff).mp hcs).1
  refine ⟨_, ?_, decodesBits_foldl C.start C.step_decodes hds⟩
  rw [decode, decodeLetters_append hcs hrest]

/-- What is accepted begins with the text of the bytes, but for the choice of characters for its
letters, and goes on with no letter. -/
theorem decode_iff (C : Coding k) {p bs : Bytes} : C.decode p = (bs, false) ↔
    ∃ text rest, p = text ++ rest ∧ text.map C.fold = C.encode bs ∧ NoLetter C.table rest := by
  obtain ⟨pad, ds, hpacks, hencode⟩ := C.encode_eq bs
  constructor
  · intro h
    obtain ⟨cs, es, after, rfl, hcs, hafter⟩ := exists_letters C.table p
    obtain ⟨s, hdecode, r, rest, hbits, hcarries, hleft⟩ := C.decode_append hcs hafter
    obtain ⟨rfl, hvalid⟩ := Prod.mk.inj (hdecode.symm.trans h)
    obtain ⟨hr, hzero, tail, rfl, htail⟩ := (C.invalid_iff hbits hafter).mp hvalid
    -- nothing but zeros is pending, so the letters are those of the bytes
    have hrest : rest = 0 := by
      by_cases hr0 : r = 0
      · subst hr0
        exact Nat.lt_one_iff.mp hcarries.rest_lt
      · exact (hleft hr0).symm.trans (hzero hr0)
    subst hrest
    obtain ⟨rfl, rfl⟩ := hpacks.unique (hcarries.packs_symm hr)
    refine ⟨cs ++ List.replicate (C.equals pad) 0x3d, tail, (List.append_assoc _ _ _).symm, ?_, htail⟩
    rw [List.map_append, ((C.letters_iff).mp hcs).2, C.fold_eq_replicate.mpr rfl, hencode]
  · rintro ⟨text, rest, rfl, htext, hrest⟩
    rw [hencode] at htext
    obtain ⟨cs, es, rfl, hcs, hes⟩ := List.map_eq_append_iff.mp htext
    obtain rfl := C.fold_eq_replicate.mp hes
    have hletters := (C.letters_iff).mpr ⟨hpacks.lt_right, hcs⟩
    have hafter := C.noLetter_replicate (C.equals pad) hrest
    obtain ⟨s, hdecode, r, rem, hbits, hcarries, hleft⟩ := C.decode_append hletters hafter
    obtain ⟨hbytes, rfl, rfl⟩ := hpacks.eq_of_carries hcarries (by decide) C.width.2
      (C.bits_lt _ _ hbits)
    rw [List.append_assoc, hdecode, (C.invalid_iff hbits hafter).mpr
      ⟨hpacks.pad_lt, hleft, rest, rfl, hrest⟩]
    rw [List.map_injective_iff.mpr (fun _ _ ↦ UInt8.toNat_inj.mp) hbytes]

theorem map_fold_encode (C : Coding k) (bs : Bytes) : (C.encode bs).map C.fold = C.encode bs := by
  obtain ⟨pad, ds, hpacks, hencode⟩ := C.encode_eq bs
  have hletters : (ds.map C.letter).map C.fold = ds.map C.letter := by
    rw [List.map_map]
    exact List.map_congr_left fun d hd ↦ C.fold_letter d (hpacks.lt_right d hd)
  rw [hencode, List.map_append, hletters, C.fold_eq_replicate.mpr rfl]

/-- A text of the bytes, in any case that is known, decodes to them. -/
theorem decode_of_map_fold (C : Coding k) {text bs : Bytes} (h : text.map C.fold = C.encode bs) :
    C.decode text = (bs, false) :=
  C.decode_iff.mpr ⟨text, [], (List.append_nil text).symm, h, nofun⟩

theorem decode_encode (C : Coding k) (bs : Bytes) : C.decode (C.encode bs) = (bs, false) :=
  C.decode_of_map_fold (C.map_fold_encode bs)

end Coding

end Bitmark
