import DistantChunks.Json.Token
import Mathlib.Data.List.Basic

/-!
# Written tokens

What is written between two marks is taken back as one token, with the value it was written from:
escaped texts, integers, and every number text that is accepted at all. A number or a word has no
end of its own, so it is one token only where what follows cannot continue it.
-/

namespace DistantChunks

namespace Quoted

theorem hexValue?_hexDigit : ∀ n < 16, hexValue? (hexDigit n) = some n := by decide

theorem codeUnit?_control : ∀ n < 32,
    codeUnit? '0' '0' (hexDigit (n / 16)) (hexDigit (n % 16)) = some n := by decide

theorem isHex_hexDigit (n : Nat) (hn : n < 16) : isHex (hexDigit n) = true := by
  rw [isHex, hexValue?_hexDigit n hn, Option.isSome_some]

/-- A character is written as a one-letter escape, by its code or as it is. -/
theorem escapeChar_cases (c : Char) :
    (∃ d, escapeChar c = ['\\', d] ∧ d ≠ 'u' ∧ simpleEscape? d = some c) ∨
      (escapeChar c = ['\\', 'u', '0', '0', hexDigit (c.toNat / 16), hexDigit (c.toNat % 16)] ∧
        c.toNat < 32) ∨
      (escapeChar c = [c] ∧ c ≠ '"' ∧ c ≠ '\\' ∧ 32 ≤ c.toNat) := by
  have hchar {n : Nat} (hn : c.toNat = n) : Char.ofNat n = c := by rw [← hn, Char.ofNat_toNat]
  unfold escapeChar
  split
  case isTrue h => exact .inl ⟨'"', rfl, by decide, by subst h; rfl⟩
  split
  case isTrue h => exact .inl ⟨'\\', rfl, by decide, by subst h; rfl⟩
  split
  case isTrue h => exact .inl ⟨'n', rfl, by decide, by subst h; rfl⟩
  split
  case isTrue h => exact .inl ⟨'r', rfl, by decide, by subst h; rfl⟩
  split
  case isTrue h => exact .inl ⟨'t', rfl, by decide, by subst h; rfl⟩
  split
  case isTrue h => exact .inl ⟨'b', rfl, by decide, congrArg some (hchar h)⟩
  split
  case isTrue h => exact .inl ⟨'f', rfl, by decide, congrArg some (hchar h)⟩
  split
  case isTrue h => exact .inr (.inl ⟨rfl, h⟩)
  case isFalse hquote hslash _ _ _ _ _ hcontrol =>
    exact .inr (.inr ⟨rfl, hquote, hslash, Nat.le_of_not_lt hcontrol⟩)

theorem unescape?_escapeChar_append (c : Char) (cs : List Char) :
    unescape? (escapeChar c ++ cs) = (unescape? cs).map (c :: ·) := by
  obtain ⟨d, hc, hd, hsimple⟩ | ⟨hc, hcontrol⟩ | ⟨hc, -, hslash, -⟩ := escapeChar_cases c
  · rw [hc, List.cons_append, List.singleton_append, unescape?, hsimple]
    rintro _ _ _ _ _ rfl -
    exact hd rfl
  · have hhigh : isHighSurrogate c.toNat = false := by
      simp only [isHighSurrogate, Bool.and_eq_false_iff, decide_eq_false_iff_not]
      omega
    have hlow : isLowSurrogate c.toNat = false := by
      simp only [isLowSurrogate, Bool.and_eq_false_iff, decide_eq_false_iff_not]
      omega
    rw [hc]
    simp only [List.cons_append, List.nil_append]
    rw [unescape?, codeUnit?_control _ hcontrol]
    simp [hhigh, hlow]
  · rw [hc, List.singleton_append, unescape?, if_neg hslash]
    · rintro _ _ _ _ _ rfl
      exact absurd rfl hslash
    · rintro _ _ rfl
      exact absurd rfl hslash

/-- An escaped text is read back. -/
theorem unescape?_escape (cs : List Char) : unescape? (escape cs) = some cs := by
  induction cs with
  | nil => rfl
  | cons c cs ih =>
    rw [escape, List.flatMap_cons, unescape?_escapeChar_append, ← escape, ih]
    rfl

end Quoted

namespace Digits

theorem split_of_all {cs : List Char} (hcs : ∀ c ∈ cs, c.isDigit = true) :
    split cs = (cs.map valueOf, []) := by
  induction cs with
  | nil => rfl
  | cons c cs ih =>
    rw [split, if_pos (hcs c List.mem_cons_self), ih fun d hd => hcs d (List.mem_cons_of_mem c hd)]
    rfl

theorem exists_of_split (cs : List Char) :
    ∃ ds, cs = ds ++ (split cs).2 ∧ (split cs).1 = ds.map valueOf ∧
      ∀ d ∈ ds, d.isDigit = true := by
  induction cs with
  | nil => exact ⟨[], rfl, rfl, by simp⟩
  | cons c cs ih =>
    obtain ⟨ds, hcs, hvalues, hdigits⟩ := ih
    rw [split]
    split
    case isTrue hc =>
      refine ⟨c :: ds, by rw [List.cons_append, ← hcs], ?_, ?_⟩
      · simp only [hvalues, List.map_cons]
      · exact List.forall_mem_cons.2 ⟨hc, hdigits⟩
    case isFalse => exact ⟨[], rfl, rfl, by simp⟩

theorem toNat_map_valueOf (cs : List Char) : toNat (cs.map valueOf) = Nat.ofDigitChars 10 cs 0 := by
  rw [toNat, List.foldl_map]
  rfl

theorem valueOf_digitChar : ∀ n < 10, valueOf n.digitChar = n := by decide

def ofNat (n : Nat) : List Nat := (Nat.toDigits 10 n).map valueOf

theorem toNat_ofNat (n : Nat) : toNat (ofNat n) = n := by
  rw [ofNat, toNat_map_valueOf, Nat.ofDigitChars_toDigits (by omega) (by omega)]

theorem split_repr (n : Nat) : split n.repr.toList = (ofNat n, []) := by
  rw [Nat.toList_repr, ofNat]
  exact split_of_all fun c hc => Nat.isDigit_of_mem_toDigits (by omega) (by omega) hc

theorem ofNat_of_lt {n : Nat} (hn : n < 10) : ofNat n = [n] := by
  rw [ofNat, Nat.toDigits_of_lt_base hn, List.map_singleton, valueOf_digitChar n hn]

theorem head?_ofNat_ne {n : Nat} (hn : 0 < n) : (ofNat n).head? ≠ some 0 := by
  induction n using Nat.strongRecOn with
  | ind n ih =>
    rcases Nat.lt_or_ge n 10 with hlt | hge
    · rw [ofNat_of_lt hlt, List.head?_cons]
      intro h
      have := Option.some.inj h
      omega
    · rw [ofNat, Nat.toDigits_of_base_le (by omega) hge, List.map_append,
        List.head?_append_of_ne_nil]
      · exact ih (n / 10) (by omega) (by omega)
      · simp [Nat.toDigits_ne_nil]

/-- A written number has one digit or no leading zero. -/
theorem ofNat_wellFormed (n : Nat) :
    ((ofNat n).length == 1 || (!(ofNat n).isEmpty && (ofNat n).head? != some 0)) = true := by
  rcases Nat.eq_zero_or_pos n with rfl | hn
  · rw [ofNat_of_lt (by omega)]
    rfl
  · have hhead := head?_ofNat_ne hn
    have hne : ofNat n ≠ [] := by simp [ofNat, Nat.toDigits_ne_nil]
    simp [hhead, hne]

end Digits

namespace NumberText

def unsigned? (negative : Bool) (cs : List Char) : Option NumberText := do
  let (whole, rest) := Digits.split cs
  guard (whole.length == 1 || (!whole.isEmpty && whole.head? != some 0))
  match rest with
  | '.' :: ds =>
    let (fraction, rest) := Digits.split ds
    guard (!fraction.isEmpty)
    return ⟨negative, whole, some fraction, ← exponent? rest⟩
  | rest => return ⟨negative, whole, none, ← exponent? rest⟩

def signed : List Char → Bool × List Char
  | '-' :: ds => (true, ds)
  | ds => (false, ds)

theorem signed_of_head {cs : List Char} (hcs : ∀ ds, cs ≠ '-' :: ds) :
    signed cs = (false, cs) := by
  unfold signed
  split
  case h_1 ds => exact absurd rfl (hcs ds)
  case h_2 => rfl

theorem ofChars?_eq (cs : List Char) : ofChars? cs = unsigned? (signed cs).1 (signed cs).2 := rfl

theorem ofChars?_minus (cs : List Char) : ofChars? ('-' :: cs) = unsigned? true cs := rfl

theorem ofChars?_of_head {cs : List Char} (hcs : ∀ ds, cs ≠ '-' :: ds) :
    ofChars? cs = unsigned? false cs := by
  rw [ofChars?_eq, signed_of_head hcs]

theorem unsigned?_repr (negative : Bool) (n : Nat) :
    unsigned? negative n.repr.toList = some ⟨negative, Digits.ofNat n, none, none⟩ := by
  have hguard : (guard ((Digits.ofNat n).length == 1 || (!(Digits.ofNat n).isEmpty &&
      (Digits.ofNat n).head? != some 0)) : Option Unit) = some () :=
    if_pos (Digits.ofNat_wellFormed n)
  rw [unsigned?, Digits.split_repr]
  exact congrArg (Option.bind · fun _ =>
    some (NumberText.mk negative (Digits.ofNat n) none none)) hguard

theorem ofChars?_repr (n : Nat) :
    ofChars? n.repr.toList = some ⟨false, Digits.ofNat n, none, none⟩ := by
  rw [ofChars?_of_head, unsigned?_repr]
  intro ds h
  have hdigit : ('-' : Char).isDigit = true := by
    refine Nat.isDigit_of_mem_toDigits (b := 10) (n := n) (by omega) (by omega) ?_
    rw [← Nat.toList_repr, h]
    exact List.mem_cons_self
  exact absurd hdigit (by decide)

theorem isNumberChar_of_isDigit {c : Char} (hc : c.isDigit = true) : isNumberChar c = true := by
  simp [isNumberChar, hc]

theorem isNumberChar_of_split {cs : List Char} {ds : List Nat} {rest : List Char}
    (h : Digits.split cs = (ds, rest)) (hrest : ∀ c ∈ rest, isNumberChar c = true) :
    ∀ c ∈ cs, isNumberChar c = true := by
  obtain ⟨digits, hcs, -, hdigits⟩ := Digits.exists_of_split cs
  rw [h] at hcs
  rw [hcs]
  intro c hc
  rcases List.mem_append.1 hc with hc | hc
  · exact isNumberChar_of_isDigit (hdigits c hc)
  · exact hrest c hc

theorem isNumberChar_of_exponent? {cs : List Char} {e : Option (Bool × List Nat)}
    (h : exponent? cs = some e) : ∀ c ∈ cs, isNumberChar c = true := by
  cases cs with
  | nil => simp
  | cons c cs =>
    unfold exponent? at h
    dsimp only at h
    split at h
    case isFalse => cases h
    case isTrue hc =>
      have hmark : isNumberChar c = true := by
        rcases Bool.or_eq_true _ _ ▸ hc with hc | hc <;> simp [isNumberChar, hc]
      rw [List.forall_mem_cons]
      refine ⟨hmark, ?_⟩
      split at h
      case h_2 => cases h
      case h_1 d ds heq =>
        split at heq
        case h_1 => exact List.forall_mem_cons.2 ⟨rfl, isNumberChar_of_split heq (by simp)⟩
        case h_2 => exact List.forall_mem_cons.2 ⟨rfl, isNumberChar_of_split heq (by simp)⟩
        case h_3 => exact isNumberChar_of_split heq (by simp)

theorem isNumberChar_of_unsigned? {negative : Bool} {cs : List Char} {t : NumberText}
    (h : unsigned? negative cs = some t) : ∀ c ∈ cs, isNumberChar c = true := by
  unfold unsigned? at h
  split at h
  case h_1 whole rest hsplit =>
  obtain ⟨_, -, h⟩ := Option.bind_eq_some_iff.1 h
  refine isNumberChar_of_split hsplit ?_
  split at h
  case h_1 ds =>
    split at h
    case h_1 fraction rest' hsplit' =>
    obtain ⟨_, -, h⟩ := Option.bind_eq_some_iff.1 h
    obtain ⟨e, he, -⟩ := Option.bind_eq_some_iff.1 h
    exact List.forall_mem_cons.2
      ⟨rfl, isNumberChar_of_split hsplit' (isNumberChar_of_exponent? he)⟩
  case h_2 =>
    obtain ⟨e, he, -⟩ := Option.bind_eq_some_iff.1 h
    exact isNumberChar_of_exponent? he

theorem exists_digit_of_unsigned? {negative : Bool} {cs : List Char} {t : NumberText}
    (h : unsigned? negative cs = some t) : ∃ d ds, cs = d :: ds ∧ d.isDigit = true := by
  unfold unsigned? at h
  split at h
  case h_1 whole rest hsplit =>
  obtain ⟨_, hwhole, -⟩ := Option.bind_eq_some_iff.1 h
  obtain ⟨ds, hcs, hvalues, hdigits⟩ := Digits.exists_of_split cs
  rw [hsplit] at hcs hvalues
  cases ds with
  | nil =>
    subst hvalues
    cases hwhole
  | cons d ds => exact ⟨d, ds ++ rest, hcs, hdigits d List.mem_cons_self⟩

/-- A number text starts with a minus sign or a digit and goes on with characters of numbers. -/
theorem exists_of_ofChars? {cs : List Char} {t : NumberText} (h : ofChars? cs = some t) :
    ∃ d ds, cs = d :: ds ∧ (d = '-' ∨ d.isDigit = true) ∧
      ∀ c ∈ ds, isNumberChar c = true := by
  by_cases hsign : ∃ ds, cs = '-' :: ds
  · obtain ⟨ds, rfl⟩ := hsign
    rw [ofChars?_minus] at h
    exact ⟨'-', ds, rfl, .inl rfl, isNumberChar_of_unsigned? h⟩
  · rw [ofChars?_of_head fun ds hds => hsign ⟨ds, hds⟩] at h
    obtain ⟨d, ds, rfl, hd⟩ := exists_digit_of_unsigned? h
    exact ⟨d, ds, rfl, .inr hd, (List.forall_mem_cons.1 (isNumberChar_of_unsigned? h)).2⟩

end NumberText

namespace Json

theorem number?_ofNat (n : Nat) :
    (ofNat n).number? = some ⟨false, Digits.ofNat n, none, none⟩ := NumberText.ofChars?_repr n

theorem number?_ofInt_negSucc (n : Nat) :
    (ofInt (.negSucc n)).number? = some ⟨true, Digits.ofNat (n + 1), none, none⟩ := by
  have htext : (Int.negSucc n).repr.toList = '-' :: (n + 1).repr.toList := by
    rw [Int.repr, String.toList_append]
    rfl
  rw [ofInt, number?, htext, NumberText.ofChars?_minus, NumberText.unsigned?_repr]

theorem integer?_ofNat {n : Nat} (hn : n < 0x10000000000000000) :
    (ofNat n).integer? = some (n : Int) := by
  have hvalue := Digits.toNat_ofNat n
  rw [integer?, number?_ofNat]
  refine (if_pos (hvalue.symm ▸ hn)).trans ?_
  rw [hvalue]

theorem integer?_ofInt {n : Int} (hlow : -0x8000000000000000 ≤ n)
    (hhigh : n < 0x10000000000000000) : (ofInt n).integer? = some n := by
  cases n with
  | ofNat n => exact integer?_ofNat (Int.ofNat_lt.1 hhigh)
  | negSucc n =>
    have hvalue := Digits.toNat_ofNat (n + 1)
    have hbounds : 0 < Digits.toNat (Digits.ofNat (n + 1)) ∧
        Digits.toNat (Digits.ofNat (n + 1)) ≤ 0x8000000000000000 := by omega
    rw [integer?, number?_ofInt_negSucc]
    refine (if_pos hbounds).trans ?_
    rw [hvalue]
    rfl

theorem integerWithin?_of_integer? {low high n : Int} {j : Json} (hj : j.integer? = some n)
    (hwithin : low ≤ n ∧ n ≤ high) : j.integerWithin? low high = some n := by
  have hguard : (guard (low ≤ n ∧ n ≤ high) : Option Unit) = some () := if_pos hwithin
  rw [integerWithin?, hj]
  exact congrArg (Option.bind · fun _ => some n) hguard

theorem int32?_ofInt (n : Int32) : (ofInt n.toInt).int32? = some n.toInt := by
  have hlow := n.le_toInt
  have hhigh := n.toInt_lt
  exact integerWithin?_of_integer? (integer?_ofInt (by omega) (by omega)) (by omega)

theorem uint32?_ofNat (n : UInt32) : (ofNat n.toNat).uint32? = some n.toNat := by
  have hn := n.toNat_lt
  rw [uint32?, integerWithin?_of_integer? (integer?_ofNat (by omega)) (by omega)]
  rfl

end Json

namespace Token

/-- The tokens of a text whose first part has been taken. -/
def resume? (state : Pending × List Token) (cs : List Char) : Option (List Token) :=
  run? state cs >>= finish?

theorem resume?_cons {state next : Pending × List Token} {c : Char} (cs : List Char)
    (h : step? state c = some next) : resume? state (c :: cs) = resume? next cs := by
  rw [resume?, run?, h]
  rfl

variable {tokens : List Token}

theorem resume?_blank {c : Char} (hc : isBlank c = true) (cs : List Char) :
    resume? (.nothing, tokens) (c :: cs) = resume? (.nothing, tokens) cs :=
  resume?_cons cs (if_pos hc)

theorem resume?_blanks {bs : List Char} (hbs : ∀ b ∈ bs, isBlank b = true) (cs : List Char) :
    resume? (.nothing, tokens) (bs ++ cs) = resume? (.nothing, tokens) cs := by
  induction bs with
  | nil => rfl
  | cons b bs ih =>
    rw [List.cons_append, resume?_blank (hbs b List.mem_cons_self),
      ih fun d hd => hbs d (List.mem_cons_of_mem b hd)]

/-- What follows does not continue a number or a word. -/
def Ends (cs : List Char) : Prop :=
  ∀ c ds, cs = c :: ds → c.isAlpha = false ∧ NumberText.isNumberChar c = false

theorem Ends.nil : Ends [] := by
  intro c ds h
  cases h

theorem Ends.cons {c : Char} (cs : List Char)
    (hc : c.isAlpha = false ∧ NumberText.isNumberChar c = false) : Ends (c :: cs) := by
  intro d ds h
  cases h
  exact hc

/-- Characters that a pending token takes one by one. -/
theorem resume?_taken (pending : List Char → Pending) {p : Char → Bool}
    (hstep : ∀ taken c, p c = true →
      step? (pending taken, tokens) c = some (pending (c :: taken), tokens))
    (taken : List Char) {ds : List Char} (hds : ∀ d ∈ ds, p d = true) (cs : List Char) :
    resume? (pending taken, tokens) (ds ++ cs) =
      resume? (pending (ds.reverse ++ taken), tokens) cs := by
  induction ds generalizing taken with
  | nil => rfl
  | cons d ds ih =>
    rw [List.cons_append, resume?_cons _ (hstep taken d (hds d List.mem_cons_self)),
      ih _ fun e he => hds e (List.mem_cons_of_mem d he), List.reverse_cons, List.append_assoc]
    rfl

/-- Two states with the same end and the same next step where a token ends. -/
theorem resume?_congr {state state' : Pending × List Token}
    (hfinish : finish? state = finish? state')
    (hstep : ∀ c, c.isAlpha = false → NumberText.isNumberChar c = false →
      step? state c = step? state' c) {cs : List Char} (hcs : Ends cs) :
    resume? state cs = resume? state' cs := by
  cases cs with
  | nil => exact hfinish
  | cons c cs =>
    obtain ⟨halpha, hnumber⟩ := hcs c cs rfl
    rw [resume?, resume?, run?, run?, hstep c halpha hnumber]

theorem isBlank_eq_false {p : Char → Bool} (hp : [' ', '\n', '\t', '\r'].any p = false)
    {c : Char} (hc : p c = true) : isBlank c = false := by
  by_contra hblank
  have hmem : c ∈ [' ', '\n', '\t', '\r'] := by
    simp only [isBlank, Bool.or_eq_true, beq_iff_eq, or_assoc, Bool.not_eq_false] at hblank
    simpa using hblank
  exact List.any_eq_false.1 hp c hmem hc

theorem step?_nothing_of_isAlpha {c : Char} (hc : c.isAlpha = true) :
    step? (.nothing, tokens) c = some (.word [c], tokens) := by
  have hblank : isBlank c = false := isBlank_eq_false (p := Char.isAlpha) rfl hc
  have hquote : c ≠ '"' := by
    rintro rfl
    cases hc
  simp only [step?, start?, hblank, hquote, hc]
  rfl

theorem step?_nothing_of_isDigit {c : Char} (hc : c.isDigit = true) :
    step? (.nothing, tokens) c = some (.number [c], tokens) := by
  have hblank : isBlank c = false := isBlank_eq_false (p := Char.isDigit) rfl hc
  have hquote : c ≠ '"' := by
    rintro rfl
    cases hc
  have halpha : c.isAlpha = false := by
    simp only [Char.isDigit, Bool.and_eq_true, decide_eq_true_eq] at hc
    change (decide (c.val ≥ 'A'.val ∧ c.val ≤ 'Z'.val) ||
      c.val ≥ 'a'.val && c.val ≤ 'z'.val) = false
    grind
  have hnumber := NumberText.isNumberChar_of_isDigit hc
  simp only [step?, start?, hblank, hquote, halpha, hnumber]
  rfl

theorem step?_number (taken : List Char) {c : Char} (hc : NumberText.isNumberChar c = true) :
    step? (.number taken, tokens) c = some (.number (c :: taken), tokens) := by
  rw [step?, if_pos hc]

theorem step?_word (taken : List Char) {c : Char} (hc : c.isAlpha = true) :
    step? (.word taken, tokens) c = some (.word (c :: taken), tokens) := by
  rw [step?, if_pos hc]

/-- A whole number text is one token. -/
theorem resume?_number {ds : List Char} {t : NumberText} (hds : NumberText.ofChars? ds = some t)
    {cs : List Char} (hcs : Ends cs) :
    resume? (.nothing, tokens) (ds ++ cs) =
      resume? (.nothing, .value (.number (String.ofList ds)) :: tokens) cs := by
  obtain ⟨d, ds, rfl, hd, hrest⟩ := NumberText.exists_of_ofChars? hds
  have hstart : step? (.nothing, tokens) d = some (.number [d], tokens) := by
    rcases hd with rfl | hd
    · rfl
    · exact step?_nothing_of_isDigit hd
  have htoken : ofNumber? (ds.reverse ++ [d]).reverse =
      some (.value (.number (String.ofList (d :: ds)))) := by
    rw [List.reverse_append, List.reverse_reverse, List.reverse_singleton, List.singleton_append,
      ofNumber?, hds]
    rfl
  rw [List.cons_append, resume?_cons _ hstart,
    resume?_taken .number (fun taken c hc => step?_number taken hc) [d] hrest]
  refine resume?_congr ?_ ?_ hcs
  · simp only [finish?, htoken]
    rfl
  · intro c _ hnumber
    simp only [step?, hnumber, htoken]
    rfl

theorem resume?_word (w : Char) (ws : List Char) {t : Token} (hw : ofWord? (w :: ws) = some t)
    (halpha : (w :: ws).all Char.isAlpha = true) {cs : List Char} (hcs : Ends cs) :
    resume? (.nothing, tokens) (w :: ws ++ cs) = resume? (.nothing, t :: tokens) cs := by
  obtain ⟨hstart, hrest⟩ := List.forall_mem_cons.1 (List.all_eq_true.1 halpha)
  have hstart : step? (.nothing, tokens) w = some (.word [w], tokens) :=
    step?_nothing_of_isAlpha hstart
  have htoken : ofWord? (ws.reverse ++ [w]).reverse = some t := by
    rw [List.reverse_append, List.reverse_reverse, List.reverse_singleton, List.singleton_append,
      hw]
  rw [List.cons_append, resume?_cons _ hstart,
    resume?_taken .word (fun taken c hc => step?_word taken hc) [w] hrest]
  refine resume?_congr ?_ ?_ hcs
  · simp only [finish?, htoken]
    rfl
  · intro c halpha _
    simp only [step?, halpha, htoken]
    rfl

theorem resume?_escapeChar (taken : List Char) (c : Char) (cs : List Char) :
    resume? (.text taken, tokens) (Quoted.escapeChar c ++ cs) =
      resume? (.text ((Quoted.escapeChar c).reverse ++ taken), tokens) cs := by
  have hescape : step? (.text taken, tokens) '\\' = some (.escape ('\\' :: taken), tokens) := rfl
  obtain ⟨d, hc, hd, hsimple⟩ | ⟨hc, hcontrol⟩ | ⟨hc, hquote, hslash, hplain⟩ :=
    Quoted.escapeChar_cases c
  · have hstep : step? (.escape ('\\' :: taken), tokens) d =
        some (.text (d :: '\\' :: taken), tokens) := by
      simp [step?, hd, hsimple]
    rw [hc, List.cons_append, resume?_cons _ hescape, List.singleton_append, resume?_cons _ hstep]
    rfl
  · have hcode (hs : List Char) :
        step? (.escape hs, tokens) 'u' = some (.hex ('u' :: hs) 4, tokens) := rfl
    have hthird (hs : List Char) :
        step? (.hex hs 2, tokens) (Quoted.hexDigit (c.toNat / 16)) =
          some (.hex (Quoted.hexDigit (c.toNat / 16) :: hs) 1, tokens) := by
      rw [step?, if_pos (Quoted.isHex_hexDigit _ (by omega))]
      rfl
    have hfourth (hs : List Char) :
        step? (.hex hs 1, tokens) (Quoted.hexDigit (c.toNat % 16)) =
          some (.text (Quoted.hexDigit (c.toNat % 16) :: hs), tokens) := by
      rw [step?, if_pos (Quoted.isHex_hexDigit _ (by omega))]
      rfl
    have hzeros (hs : List Char) (ds : List Char) :
        resume? (.hex hs 4, tokens) ('0' :: '0' :: ds) =
          resume? (.hex ('0' :: '0' :: hs) 2, tokens) ds := rfl
    rw [hc]
    simp only [List.cons_append, List.nil_append]
    rw [resume?_cons _ hescape, resume?_cons _ (hcode _), hzeros, resume?_cons _ (hthird _),
      resume?_cons _ (hfourth _)]
    rfl
  · have hstep : step? (.text taken, tokens) c = some (.text (c :: taken), tokens) := by
      simp [step?, hquote, hslash, Nat.not_lt.2 hplain]
    rw [hc, List.singleton_append, resume?_cons _ hstep]
    rfl

theorem resume?_escape (taken : List Char) (text cs : List Char) :
    resume? (.text taken, tokens) (Quoted.escape text ++ cs) =
      resume? (.text ((Quoted.escape text).reverse ++ taken), tokens) cs := by
  induction text generalizing taken with
  | nil => rfl
  | cons c text ih =>
    rw [Quoted.escape, List.flatMap_cons, ← Quoted.escape, List.append_assoc, resume?_escapeChar,
      ih, List.reverse_append, List.append_assoc]

/-- A quoted text is one token. -/
theorem resume?_quoted (text cs : List Char) :
    resume? (.nothing, tokens) ('"' :: (Quoted.escape text ++ '"' :: cs)) =
      resume? (.nothing, .value (.text (String.ofList (Quoted.escape text))) :: tokens) cs := by
  have hclose : step? (.text (Quoted.escape text).reverse, tokens) '"' =
      some (.nothing, .value (.text (String.ofList (Quoted.escape text))) :: tokens) := by
    rw [step?, if_pos rfl, List.reverse_reverse]
  rw [resume?_cons _ rfl, resume?_escape, List.append_nil, resume?_cons _ hclose]

end Token

end DistantChunks
