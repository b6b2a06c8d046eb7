import Mathlib
import PolyCheck.Session

/-! What the raw texts of string literals denote. A text is a sequence of items, plain characters
and escapes, and denotes the bytes of its items in order; an octal escape takes as many digits as it
can. Decoding gives what a text denotes and refuses a text that denotes nothing. A byte escape with
a sign in place of its first digit counts as an item there, although it has only one digit. -/
namespace PolyCheck.Escape

def IsDigit (base : Nat) (c : Char) (digit : Nat) : Prop :=
  digit < base ∧ c.toLower = Nat.digitChar digit

def Numeral (base : Nat) (text : List Char) (value : Nat) : Prop :=
  ∃ digits, List.Forall₂ (IsDigit base) text digits ∧ value = Nat.ofDigits base digits.reverse

/-- Characters that denote one byte behind a backslash. The escape of the zero byte is an octal
one. -/
def simpleEscapes : List (Char × UInt8) :=
  [('n', 10), ('r', 13), ('t', 9), ('\\', 92), ('\x22', 34), ('\x27', 39)]

/-- An item and the bytes that it denotes when `behind` follows. Where signs count, a plus sign may
stand for the first digit of a byte. -/
inductive Item (signs : Prop) (behind : List Char) : List Char → Bytes → Prop where
  | plain {c : Char} (ordinary : c ≠ '\\') : Item signs behind [c] (String.utf8EncodeChar c)
  | simple {c : Char} {byte : UInt8} (named : (c, byte) ∈ simpleEscapes) :
      Item signs behind ['\\', c] [byte]
  | byte {first second : Char} {value : Nat} (numeral : Numeral 16 [first, second] value) :
    Item signs behind ['\\', 'x', first, second] [UInt8.ofNat value]
  | signedByte {digit : Char} {value : Nat} (signed : signs) (numeral : Numeral 16 [digit] value) :
    Item signs behind ['\\', 'x', '+', digit] [UInt8.ofNat value]
  | octal {first : Char} {more : List Char} {value : Nat}
      (numeral : Numeral 8 (first :: more) value)
    (short : more.length ≤ 2) (longest : more.length = 2 ∨ ∀ c ∈ behind.head?, ∀ digit,
      ¬ IsDigit 8 c digit)
    (small : value ≤ 255) : Item signs behind ('\\' :: first :: more) [UInt8.ofNat value]
  | scalar {digits : List Char} {c : Char} (numeral : Numeral 16 digits c.toNat)
      (nonempty : digits ≠ []) (short : digits.length ≤ 6) :
    Item signs behind ('\\' :: 'u' :: '\x7b' :: digits ++ ['\x7d']) (String.utf8EncodeChar c)

/-- A text and the bytes that its items denote one after the other. -/
inductive Denotes (signs : Prop) : List Char → Bytes → Prop where
  | nil : Denotes signs [] []
  | item {text behind : List Char} {first rest : Bytes} (item : Item signs behind text first)
    (others : Denotes signs behind rest) : Denotes signs (text ++ behind) (first ++ rest)

section Digits

variable {c : Char} {digit value : Nat} {text : List Char}

theorem ascii_forall {p : Char → Prop} (each : ∀ code < 128, p (Char.ofNat code))
    (low : c.toNat < 128) : p c := by
  have shown := each c.toNat low
  rwa [Char.ofNat_toNat] at shown

theorem lt_of_not_ascii (high : ¬ c.toNat < 128) {last : Char} (ascii : last.toNat < 128) :
    ¬ c ≤ last :=
  fun below => high (Nat.lt_of_le_of_lt (UInt32.le_iff_toNat_le.mp below) ascii)

theorem IsDigit.toNat_lt {base : Nat} (isDigit : IsDigit base c digit) (small : base ≤ 16) :
    c.toNat < 128 := by
  by_contra high
  have same : c.toLower = c :=
    dif_neg fun upper => lt_of_not_ascii high (by decide : ('Z').toNat < 128) upper.2
  have low : ∀ digit < 16, (Nat.digitChar digit).toNat < 128 := by decide
  exact high (same.symm.trans isDigit.2 ▸ low digit (isDigit.1.trans_le small))

theorem hexDigit?_eq_some : hexDigit? c = some digit ↔ IsDigit 16 c digit := by
  by_cases low : c.toNat < 128
  · have lower := ascii_forall (p := fun c => hexDigit? c.toLower = hexDigit? c) (by decide) low
    have table : ∀ digit < 16, hexDigit? (Nat.digitChar digit) = some digit := by decide
    refine ⟨ascii_forall (p := fun c => ∀ digit ∈ hexDigit? c, digit < 16 ∧
        c.toLower = Nat.digitChar digit) (by decide) low digit, fun is => ?_⟩
    rw [← lower, is.2, table digit is.1]
  · refine ⟨fun read => ?_, fun is => absurd (is.toNat_lt (Nat.le_refl _)) low⟩
    simp [hexDigit?, lt_of_not_ascii low (by decide : ('9').toNat < 128),
      lt_of_not_ascii low (by decide : ('f').toNat < 128),
      lt_of_not_ascii low (by decide : ('F').toNat < 128)] at read

theorem octalDigit?_eq_some : octalDigit? c = some digit ↔ IsDigit 8 c digit := by
  by_cases low : c.toNat < 128
  · have lower := ascii_forall (p := fun c => octalDigit? c.toLower = octalDigit? c) (by decide) low
    have table : ∀ digit < 8, octalDigit? (Nat.digitChar digit) = some digit := by decide
    refine ⟨ascii_forall (p := fun c => ∀ digit ∈ octalDigit? c, digit < 8 ∧
        c.toLower = Nat.digitChar digit) (by decide) low digit, fun is => ?_⟩
    rw [← lower, is.2, table digit is.1]
  · refine ⟨fun read => ?_, fun is => absurd (is.toNat_lt (by decide)) low⟩
    simp [octalDigit?, lt_of_not_ascii low (by decide : ('7').toNat < 128)] at read

theorem numeral_cons {base : Nat} :
    Numeral base (c :: text) value ↔ ∃ digit rest, IsDigit base c digit ∧ Numeral base text rest ∧
      value = digit * base ^ text.length + rest := by
  constructor
  · rintro ⟨digits, each, rfl⟩
    obtain ⟨digit, others, isDigit, rest, rfl⟩ := List.forall₂_cons_left_iff.mp each
    refine ⟨digit, _, isDigit, ⟨others, rest, rfl⟩, ?_⟩
    rw [List.reverse_cons, Nat.ofDigits_append, List.length_reverse, rest.length_eq,
      Nat.ofDigits_singleton]
    ring
  · rintro ⟨digit, _, isDigit, ⟨others, rest, rfl⟩, rfl⟩
    refine ⟨digit :: others, .cons isDigit rest, ?_⟩
    rw [List.reverse_cons, Nat.ofDigits_append, List.length_reverse, rest.length_eq,
      Nat.ofDigits_singleton]
    ring

theorem numeral_nil {base : Nat} : Numeral base [] value ↔ value = 0 := by
  constructor
  · rintro ⟨digits, each, rfl⟩
    rw [List.forall₂_nil_left_iff.mp each]
    rfl
  · rintro rfl
    exact ⟨[], .nil, rfl⟩

theorem Numeral.isDigit {base : Nat} (numeral : Numeral base text value) (member : c ∈ text) :
    ∃ digit, IsDigit base c digit := by
  obtain ⟨digits, each, -⟩ := numeral
  obtain ⟨i, inside, rfl⟩ := List.mem_iff_getElem.mp member
  exact ⟨_, each.get inside (each.length_eq ▸ inside)⟩

theorem IsDigit.ne_plus {base : Nat} (isDigit : IsDigit base c digit) (small : base ≤ 16) :
    c ≠ '+' := by
  rintro rfl
  exact nomatch hexDigit?_eq_some.mpr ⟨isDigit.1.trans_le small, isDigit.2⟩

theorem foldlM_hexDigit?_eq_some {start : Nat} :
    text.foldlM (fun value c => (hexDigit? c).map (16 * value + ·)) start = some value ↔
      ∃ rest, Numeral 16 text rest ∧ value = start * 16 ^ text.length + rest := by
  induction text generalizing start with
  | nil => simp [numeral_nil, eq_comm]
  | cons c text ih =>
    rw [List.foldlM_cons]
    constructor
    · intro read
      obtain ⟨next, found, read⟩ := Option.bind_eq_some_iff.mp read
      obtain ⟨digit, isDigit, rfl⟩ := Option.map_eq_some_iff.mp found
      obtain ⟨rest, numeral, rfl⟩ := ih.mp read
      refine ⟨_, numeral_cons.mpr ⟨digit, rest, hexDigit?_eq_some.mp isDigit, numeral, rfl⟩, ?_⟩
      rw [List.length_cons]
      ring
    · rintro ⟨_, numeral, rfl⟩
      obtain ⟨digit, rest, isDigit, numeral', rfl⟩ := numeral_cons.mp numeral
      refine Option.bind_eq_some_iff.mpr ⟨16 * start + digit, ?_, ih.mpr ⟨rest, numeral', ?_⟩⟩
      · rw [hexDigit?_eq_some.mpr isDigit]
        rfl
      · rw [List.length_cons]
        ring

theorem hexNumeral?_eq_some : hexNumeral? text = some value ↔ text ≠ [] ∧
    Numeral 16 text value := by
  cases text with
  | nil => simp [hexNumeral?]
  | cons c text =>
    rw [hexNumeral?, foldlM_hexDigit?_eq_some]
    · simp
    · exact fun same => by cases same

end Digits

section Escapes

variable {signs : Prop} {rest behind text : List Char} {bytes : Bytes}

theorem simpleByte?_eq_some {c : Char} {byte : UInt8} : simpleByte? c = some byte ↔
    (c, byte) ∈ simpleEscapes := by
  unfold simpleByte? simpleEscapes
  split <;> simp_all [eq_comm]

theorem byteOf?_eq_some {first second : Char} {byte : UInt8} : byteOf? first second = some byte ↔
    ∃ value, Numeral 16 (if first = '+' then [second] else [first, second]) value ∧
      byte = UInt8.ofNat value := by
  rw [byteOf?, Option.map_eq_some_iff]
  refine exists_congr fun value => ?_
  rw [hexNumeral?_eq_some, eq_comm (b := byte)]
  split <;> simp

theorem readByte_eq_ok : readByte rest = .ok (bytes, behind) ↔
    ∃ first second value, rest = first :: second :: behind ∧ bytes = [UInt8.ofNat value] ∧
      Numeral 16 (if first = '+' then [second] else [first, second]) value := by
  constructor
  · intro read
    unfold readByte at read
    split at read
    · split at read
      · rename_i found
        obtain ⟨value, numeral, rfl⟩ := byteOf?_eq_some.mp found
        obtain ⟨rfl, rfl⟩ := Prod.mk.inj (Except.ok.inj read)
        exact ⟨_, _, value, rfl, rfl, numeral⟩
      · cases read
    · cases read
  · rintro ⟨first, second, value, rfl, rfl, numeral⟩
    rw [readByte, byteOf?_eq_some.mpr ⟨value, numeral, rfl⟩]

theorem scalar?_eq_some {code : Nat} {c : Char} : scalar? code = some c ↔ c.toNat = code := by
  unfold scalar?
  split
  · rename_i valid
    rw [Option.some.injEq]
    constructor
    · rintro rfl
      rfl
    · rintro rfl
      rfl
  · rename_i invalid
    exact ⟨nofun, fun same => absurd (same ▸ c.valid) invalid⟩

theorem readScalarDigits_eq_ok {taken : List Char} (short : taken.length ≤ 6) :
    readScalarDigits taken rest = .ok (bytes, behind) ↔
      ∃ more c, rest = more ++ '\x7d' :: behind ∧ (taken ++ more).length ≤ 6 ∧ taken ++ more ≠ [] ∧
        Numeral 16 (taken ++ more) c.toNat ∧ bytes = String.utf8EncodeChar c := by
  induction rest generalizing taken with
  | nil => simp [readScalarDigits]
  | cons next rest ih =>
    rw [readScalarDigits]
    split
    · rename_i closing
      subst closing
      have read : ∀ c, (hexNumeral? taken).bind scalar? = some c ↔ taken ≠ [] ∧
          Numeral 16 taken c.toNat := by
        intro c
        simp only [Option.bind_eq_some_iff, hexNumeral?_eq_some, scalar?_eq_some]
        constructor
        · rintro ⟨_, numeral, rfl⟩
          exact numeral
        · exact fun numeral => ⟨_, numeral, rfl⟩
      constructor
      · intro ended
        split at ended
        · rename_i c found
          obtain ⟨nonempty, numeral⟩ := (read c).mp found
          obtain ⟨rfl, rfl⟩ := Prod.mk.inj (Except.ok.inj ended)
          exact ⟨[], c, rfl, by simpa using short, by simpa using nonempty,
            by simpa using numeral, rfl⟩
        · cases ended
      · rintro ⟨more, c, same, -, nonempty, numeral, rfl⟩
        cases more with
        | nil =>
          rw [List.append_nil] at nonempty numeral
          obtain ⟨-, rfl⟩ := List.cons.inj same
          rw [(read c).mpr ⟨nonempty, numeral⟩]
        | cons digit more =>
          obtain ⟨rfl, -⟩ := List.cons.inj same
          obtain ⟨value, isDigit⟩ :=
            numeral.isDigit (List.mem_append_right taken List.mem_cons_self)
          cases hexDigit?_eq_some.mpr isDigit
    · rename_i inside
      -- The closing brace is further on, so what is read next has to be a digit.
      have goes : ∀ {more : List Char} {value : Nat}, next :: rest = more ++ '\x7d' :: behind →
          (taken ++ more).length ≤ 6 → Numeral 16 (taken ++ more) value →
          ((hexDigit? next).isSome ∧ taken.length < 6) ∧
            ∃ more', more = next :: more' ∧ rest = more' ++ '\x7d' :: behind := by
        intro more value same room numeral
        cases more with
        | nil => exact absurd (List.cons.inj same).1 inside
        | cons digit more =>
          obtain ⟨rfl, rfl⟩ := List.cons.inj same
          obtain ⟨value, isDigit⟩ :=
            numeral.isDigit (List.mem_append_right taken List.mem_cons_self)
          rw [List.length_append, List.length_cons] at room
          exact ⟨⟨Option.isSome_of_eq_some (hexDigit?_eq_some.mpr isDigit), by omega⟩,
            more, rfl, rfl⟩
      split
      · rename_i room
        rw [ih (by simpa using room.2)]
        constructor
        · rintro ⟨more, c, rfl, rest⟩
          exact ⟨next :: more, c, rfl, by simpa using rest⟩
        · rintro ⟨more, c, same, rest⟩
          obtain ⟨-, more, rfl, rfl⟩ := goes same rest.1 rest.2.2.1
          exact ⟨more, c, rfl, by simpa using rest⟩
      · rename_i full
        constructor
        · intro ended
          cases ended
        · rintro ⟨more, c, same, room, -, numeral, -⟩
          exact absurd (goes same room numeral).1 full

/-- The longest run of octal digits in front of a text, up to a number of digits, has this value
when it is read on from `start`. -/
def OctalRun (limit start : Nat) (text behind : List Char) (value : Nat) : Prop :=
  ∃ more low, text = more ++ behind ∧ Numeral 8 more low ∧ value = start * 8 ^ more.length + low ∧
    more.length ≤ limit ∧ (more.length = limit ∨ ∀ c ∈ behind.head?, ∀ digit, ¬ IsDigit 8 c digit)

theorem octalRun_stop {limit start value : Nat}
    (ends : limit = 0 ∨ ∀ c ∈ rest.head?, ∀ digit, ¬ IsDigit 8 c digit) :
    OctalRun limit start rest behind value ↔ rest = behind ∧ start = value := by
  constructor
  · rintro ⟨more, low, rfl, numeral, rfl, short, -⟩
    cases more with
    | nil =>
      obtain rfl := numeral_nil.mp numeral
      simp
    | cons c more =>
      obtain ⟨digit, isDigit⟩ := numeral.isDigit List.mem_cons_self
      rcases ends with rfl | ends
      · cases short
      · exact absurd isDigit (ends c rfl digit)
  · rintro ⟨rfl, rfl⟩
    exact ⟨[], 0, rfl, numeral_nil.mpr rfl, by simp, Nat.zero_le _, ends.imp_left Eq.symm⟩

theorem octalRun_cons {limit start value digit : Nat} {c : Char} (isDigit : IsDigit 8 c digit) :
    OctalRun (limit + 1) start (c :: rest) behind value ↔
      OctalRun limit (8 * start + digit) rest behind value := by
  constructor
  · rintro ⟨more, low, same, numeral, rfl, short, longest⟩
    cases more with
    | nil =>
      rcases longest with none | longest
      · cases none
      · exact absurd isDigit (longest c (congrArg List.head? same).symm digit)
    | cons other more =>
      obtain ⟨rfl, rfl⟩ := List.cons.inj same
      obtain ⟨digit', low, isDigit', numeral', rfl⟩ := numeral_cons.mp numeral
      obtain rfl :=
        Option.some.inj
          ((octalDigit?_eq_some.mpr isDigit).symm.trans (octalDigit?_eq_some.mpr isDigit'))
      refine ⟨more, low, rfl, numeral', ?_, Nat.le_of_succ_le_succ short,
        longest.imp_left Nat.succ.inj⟩
      rw [List.length_cons]
      ring
  · rintro ⟨more, low, rfl, numeral, rfl, short, longest⟩
    refine ⟨c :: more, _, rfl, numeral_cons.mpr ⟨digit, low, isDigit, numeral, rfl⟩, ?_,
      Nat.succ_le_succ short, longest.imp_left (congrArg Nat.succ)⟩
    rw [List.length_cons]
    ring

theorem octalRun_iff {limit start value : Nat} {digits : List (Option Nat)}
    (read : ((rest.take limit).map octalDigit?).takeWhile Option.isSome = digits) :
    OctalRun limit start rest behind value ↔
      rest.drop digits.length = behind ∧
        digits.foldl (fun value digit => 8 * value + digit.getD 0) start = value := by
  induction limit generalizing rest start digits with
  | zero =>
    subst read
    exact octalRun_stop (.inl rfl)
  | succ limit ih =>
    cases rest with
    | nil =>
      subst read
      exact octalRun_stop (.inr nofun)
    | cons c rest =>
      rw [List.take_succ_cons, List.map_cons] at read
      cases found : octalDigit? c with
      | none =>
        rw [found] at read
        subst read
        refine octalRun_stop (.inr fun next same digit isDigit => ?_)
        obtain rfl := Option.some.inj same
        exact nomatch found.symm.trans (octalDigit?_eq_some.mpr isDigit)
      | some digit =>
        rw [found, List.takeWhile_cons_of_pos rfl] at read
        subst read
        exact (octalRun_cons (octalDigit?_eq_some.mp found)).trans (ih rfl)

theorem readOctal_eq_ok {digit : Nat} : readOctal digit rest = .ok (bytes, behind) ↔
    ∃ value ≤ 255, OctalRun 2 digit rest behind value ∧ bytes = [UInt8.ofNat value] := by
  simp only [octalRun_iff rfl, readOctal]
  split
  · rename_i small
    constructor
    · intro read
      obtain ⟨rfl, rfl⟩ := Prod.mk.inj (Except.ok.inj read)
      exact ⟨_, small, ⟨rfl, rfl⟩, rfl⟩
    · rintro ⟨_, -, ⟨rfl, rfl⟩, rfl⟩
      rfl
  · rename_i large
    constructor
    · intro read
      cases read
    · rintro ⟨_, small, ⟨-, rfl⟩, -⟩
      exact absurd small large

theorem readScalar_eq_ok : readScalar rest = .ok (bytes, behind) ↔
    ∃ digits c, rest = '\x7b' :: digits ++ '\x7d' :: behind ∧ digits.length ≤ 6 ∧ digits ≠ [] ∧
      Numeral 16 digits c.toNat ∧ bytes = String.utf8EncodeChar c := by
  cases rest with
  | nil => simp [readScalar]
  | cons c rest =>
    rw [readScalar]
    split
    · rename_i opening
      subst opening
      rw [readScalarDigits_eq_ok (by simp : ([] : List Char).length ≤ 6)]
      simp
    · rename_i other
      refine ⟨nofun, ?_⟩
      rintro ⟨digits, _, same, -⟩
      exact absurd (List.cons.inj same).1 other

theorem IsDigit.other {c : Char} {digit : Nat} (isDigit : IsDigit 8 c digit) :
    simpleByte? c = none ∧ c ≠ 'x' ∧ c ≠ 'u' := by
  have table :=
    ascii_forall (p := fun c => (octalDigit? c).isSome → simpleByte? c = none ∧ c ≠ 'x' ∧ c ≠ 'u')
    (by decide) (isDigit.toNat_lt (by decide))
  exact table (Option.isSome_of_eq_some (octalDigit?_eq_some.mpr isDigit))

theorem readEscape_eq_ok : readEscape rest = .ok (bytes, behind) ↔
    ∃ text, rest = text ++ behind ∧ Item True behind ('\\' :: text) bytes := by
  constructor
  · intro read
    cases rest with
    | nil => cases read
    | cons c rest =>
      simp only [readEscape] at read
      split at read
      · rename_i byte simple
        obtain ⟨rfl, rfl⟩ := Prod.mk.inj (Except.ok.inj read)
        exact ⟨[c], rfl, .simple (simpleByte?_eq_some.mp simple)⟩
      split at read
      · rename_i named
        subst named
        obtain ⟨first, second, value, rfl, rfl, numeral⟩ := readByte_eq_ok.mp read
        refine ⟨['x', first, second], rfl, ?_⟩
        split at numeral
        · rename_i sign
          subst sign
          exact .signedByte trivial numeral
        · exact .byte numeral
      split at read
      · rename_i named
        subst named
        obtain ⟨digits, c, rfl, short, nonempty, numeral, rfl⟩ := readScalar_eq_ok.mp read
        exact ⟨'u' :: '\x7b' :: digits ++ ['\x7d'], by simp, .scalar numeral nonempty short⟩
      split at read
      · rename_i digit isDigit
        obtain ⟨value, small, ⟨more, low, rfl, numeral, same, short, longest⟩, rfl⟩ :=
          readOctal_eq_ok.mp read
        refine ⟨c :: more, rfl, .octal ?_ short longest small⟩
        exact numeral_cons.mpr ⟨digit, low, octalDigit?_eq_some.mp isDigit, numeral, same⟩
      · cases read
  · rintro ⟨text, rfl, item⟩
    generalize written : '\\' :: text = whole at item
    cases item with
    | plain ordinary => exact absurd (List.cons.inj written).1.symm ordinary
    | simple named =>
      obtain ⟨-, rfl⟩ := List.cons.inj written
      simp [readEscape, simpleByte?_eq_some.mpr named]
    | byte numeral =>
      obtain ⟨-, rfl⟩ := List.cons.inj written
      obtain ⟨_, isDigit⟩ := numeral.isDigit List.mem_cons_self
      refine readByte_eq_ok.mpr ⟨_, _, _, rfl, rfl, ?_⟩
      rwa [if_neg (isDigit.ne_plus (Nat.le_refl _))]
    | signedByte _ numeral =>
      obtain ⟨-, rfl⟩ := List.cons.inj written
      exact readByte_eq_ok.mpr ⟨'+', _, _, rfl, rfl, numeral⟩
    | octal numeral short longest small =>
      obtain ⟨-, rfl⟩ := List.cons.inj written
      obtain ⟨digit, low, isDigit, numeral', same⟩ := numeral_cons.mp numeral
      obtain ⟨simple, byte, scalar⟩ := isDigit.other
      simp only [List.cons_append, readEscape, simple, byte, scalar,
        octalDigit?_eq_some.mpr isDigit, if_false]
      exact readOctal_eq_ok.mpr ⟨_, small, ⟨_, low, rfl, numeral', same, short, longest⟩, rfl⟩
    | @scalar digits c numeral nonempty short =>
      obtain ⟨-, rfl⟩ := List.cons.inj written
      have shape : 'u' :: '\x7b' :: digits ++ ['\x7d'] ++ behind = 'u' ::
          ('\x7b' :: digits ++ '\x7d' :: behind) := by
        simp
      exact (congrArg readEscape shape).trans
        (readScalar_eq_ok.mpr ⟨digits, c, rfl, short, nonempty, numeral, rfl⟩)

theorem decodeChars_escape (read : readEscape rest = .ok (bytes, behind)) :
    decodeChars ('\\' :: rest) = (decodeChars behind).map (bytes ++ ·) := by
  rw [decodeChars, if_pos rfl]
  split
  · rename_i found
    cases read.symm.trans found
  · rename_i found
    obtain ⟨rfl, rfl⟩ := Prod.mk.inj (Except.ok.inj (read.symm.trans found))
    rfl

theorem map_eq_ok {ε α β : Type} {change : α → β} {result : Except ε α} {value : β} :
    result.map change = .ok value ↔ ∃ found, result = .ok found ∧ change found = value := by
  cases result <;> simp [Except.map]

theorem decodeChars_eq_ok : decodeChars text = .ok bytes ↔ Denotes True text bytes := by
  constructor
  · fun_induction decodeChars text generalizing bytes with
    | case1 =>
      intro read
      obtain rfl := Except.ok.inj read
      exact .nil
    | case2 rest fault refused => exact nofun
    | case3 rest first behind found _ ih =>
      intro read
      obtain ⟨others, ended, rfl⟩ := map_eq_ok.mp read
      obtain ⟨text, rfl, item⟩ := readEscape_eq_ok.mp found
      exact .item item (ih ended)
    | case4 c rest ordinary ih =>
      intro read
      obtain ⟨others, ended, rfl⟩ := map_eq_ok.mp read
      exact .item (.plain ordinary) (ih ended)
  · intro denotes
    induction denotes with
    | nil => rw [decodeChars]
    | @item text behind first rest item _ ih =>
      cases text with
      | nil => cases item
      | cons c text =>
        rw [List.cons_append]
        by_cases opening : c = '\\'
        · subst opening
          rw [decodeChars_escape (readEscape_eq_ok.mpr ⟨text, rfl, item⟩), ih]
          rfl
        · cases item with
          | plain ordinary =>
            rw [List.nil_append, decodeChars, if_neg ordinary, ih]
            rfl
          | _ => exact absurd rfl opening

theorem Item.of_unsigned (item : Item False behind text bytes) : Item signs behind text bytes := by
  cases item with
  | plain ordinary => exact .plain ordinary
  | simple named => exact .simple named
  | byte numeral => exact .byte numeral
  | signedByte signed => exact signed.elim
  | octal numeral short longest small => exact .octal numeral short longest small
  | scalar numeral nonempty short => exact .scalar numeral nonempty short

theorem Denotes.of_unsigned (denotes : Denotes False text bytes) : Denotes signs text bytes := by
  induction denotes with
  | nil => exact .nil
  | item item _ ih => exact .item item.of_unsigned ih

/-- Signs make a difference only for texts that have one behind `\x`. -/
theorem Denotes.unsigned (denotes : Denotes True text bytes)
    (unsigned : ¬ ['\\', 'x', '+'] <:+: text) : Denotes False text bytes := by
  induction denotes with
  | nil => exact .nil
  | @item text behind _ _ item _ ih =>
    refine .item ?_
      (ih fun inside => unsigned (inside.trans (List.suffix_append text behind).isInfix))
    cases item with
    | plain ordinary => exact .plain ordinary
    | simple named => exact .simple named
    | byte numeral => exact .byte numeral
    | signedByte => exact absurd ⟨[], _ :: behind, rfl⟩ unsigned
    | octal numeral short longest small => exact .octal numeral short longest small
    | scalar numeral nonempty short => exact .scalar numeral nonempty short

theorem literal_refused {fault : LiteralFault} {raw : String} (refused : decode raw = .error fault)
    (span : Span) (session : Session) :
    Check.literal (.str raw) span session = .error ⟨.invalidLiteral fault, span⟩ session := by
  simp only [Check.literal, refused]
  rfl

end Escapes

/-- Decoding accepts the texts of the grammar, gives what they denote and refuses all others.
Without a sign behind `\x`, these are the texts of the grammar that has no signs. -/
theorem decode_accepts_grammar (raw : String) :
    (∀ bytes, decode raw = .ok bytes ↔ Denotes True raw.toList bytes) ∧
      ((¬ ∃ bytes, Denotes True raw.toList bytes) → ∃ fault, decode raw = .error fault ∧
        ∀ span session,
          Check.literal (.str raw) span session = .error ⟨.invalidLiteral fault, span⟩ session) ∧
      (¬ ['\\', 'x', '+'] <:+: raw.toList → ∀ bytes, decode raw = .ok bytes ↔
        Denotes False raw.toList bytes) := by
  refine ⟨fun _ => decodeChars_eq_ok, fun meaningless => ?_, fun unsigned bytes => ?_⟩
  · cases outcome : decode raw with
    | ok bytes => exact absurd ⟨bytes, decodeChars_eq_ok.mp outcome⟩ meaningless
    | error fault => exact ⟨fault, rfl, literal_refused outcome⟩
  · exact decodeChars_eq_ok.trans ⟨fun denotes => denotes.unsigned unsigned, Denotes.of_unsigned⟩

/-- A sign counts as a digit of a byte, so decoding accepts more than the grammar without signs. -/
theorem signed_byte_accepted :
    decode "\\x+f" = .ok [15] ∧ ¬ ∃ bytes, Denotes False "\\x+f".toList bytes := by
  refine ⟨by cbv, ?_⟩
  rintro ⟨bytes, denotes⟩
  have shape : "\\x+f".toList = ['\\', 'x', '+', 'f'] := by decide
  generalize "\\x+f".toList = text at shape denotes
  cases denotes with
  | nil => cases shape
  | item item =>
    cases item with
    | plain ordinary => exact ordinary (List.cons.inj shape).1
    | simple named =>
      obtain ⟨rfl, -⟩ := List.cons.inj (List.cons.inj shape).2
      simp [simpleEscapes] at named
    | byte numeral =>
      obtain ⟨rfl, -⟩ := List.cons.inj (List.cons.inj (List.cons.inj shape).2).2
      obtain ⟨_, isDigit⟩ := numeral.isDigit List.mem_cons_self
      exact isDigit.ne_plus (Nat.le_refl _) rfl
    | signedByte signed => exact signed
    | octal numeral =>
      obtain ⟨rfl, -⟩ := List.cons.inj (List.cons.inj shape).2
      obtain ⟨_, isDigit⟩ := numeral.isDigit List.mem_cons_self
      exact isDigit.other.2.1 rfl
    | scalar => exact absurd (List.cons.inj (List.cons.inj shape).2).1 (by decide)

end PolyCheck.Escape
