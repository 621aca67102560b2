import DistantChunks.Json.Reader
import DistantChunks.Json.Writer
import DistantChunks.Proofs.WrittenTokens

/-!
# Reading what was written

The indented form of a value is read back as that value, whatever its depth, provided that its
numbers are number texts and its texts and names are escaped (`Json.read?_pretty`). The tokens of
the value stand between the two halves of the argument: the scan finds them in the indented form,
and the reader builds the value from them.
-/

namespace DistantChunks

namespace Json

/-- The numbers are number texts, and texts and names are escaped. -/
inductive IsWritten : Json → Prop
  | null : IsWritten .null
  | bool (b : Bool) : IsWritten (.bool b)
  | number {s : String} {t : NumberText} (h : NumberText.ofChars? s.toList = some t) :
    IsWritten (.number s)
  | text (s : String) : IsWritten (.ofText s)
  | array {items : List Json} (h : ∀ j ∈ items, IsWritten j) : IsWritten (.array items)
  | object {members : List (String × Json)} (hnames : ∀ m ∈ members, ∃ s, .text m.1 = ofText s)
    (h : ∀ m ∈ members, IsWritten m.2) : IsWritten (.object members)

theorem IsWritten.ofInt (n : Int) : IsWritten (.ofInt n) := by
  cases n with
  | ofNat n => exact .number (NumberText.ofChars?_repr n)
  | negSucc n => exact .number (number?_ofInt_negSucc n)

theorem IsWritten.ofNat (n : Nat) : IsWritten (.ofNat n) := .number (NumberText.ofChars?_repr n)

/-- A written number of single precision is not null, so it is a number text. -/
theorem IsWritten.ofSingle {x : Float32} (h : (Json.ofSingle x).single? = some x) :
    IsWritten (.ofSingle x) := by
  obtain ⟨t, ht, -⟩ := Option.bind_eq_some_iff.1 h
  cases hx : Json.ofSingle x with
  | number s =>
    rw [hx] at ht
    exact .number ht
  | _ =>
    rw [hx] at ht
    cases ht

mutual

/-- The tokens that a value is written with. -/
def tokens : Json → List Token
  | .array items => .openArray :: itemTokens items ++ [.closeArray]
  | .object members => .openObject :: memberTokens members ++ [.closeObject]
  | j => [.value j]

def itemTokens : List Json → List Token
  | [] => []
  | [item] => tokens item
  | item :: rest => tokens item ++ .comma :: itemTokens rest

def memberTokens : List (String × Json) → List Token
  | [] => []
  | [(name, value)] => .value (.text name) :: .colon :: tokens value
  | (name, value) :: rest =>
    .value (.text name) :: .colon :: tokens value ++ .comma :: memberTokens rest

end

open Token (resume? Ends resume?_cons resume?_blanks)

/-- The scan takes the indented form of a value as the tokens of the value. -/
def IsScanned (j : Json) : Prop :=
  ∀ depth tokens cs, Ends cs →
    resume? (.nothing, tokens) ((indented depth j).toList ++ cs) =
      resume? (.nothing, j.tokens.reverse ++ tokens) cs

theorem toList_newLine (depth : Nat) :
    (newLine depth).toList = '\n' :: List.replicate (2 * depth) ' ' := by
  simp [newLine]

theorem resume?_newLine (depth : Nat) (tokens : List Token) (cs : List Char) :
    resume? (.nothing, tokens) ((newLine depth).toList ++ cs) = resume? (.nothing, tokens) cs := by
  refine resume?_blanks ?_ cs
  rw [toList_newLine, List.forall_mem_cons]
  refine ⟨rfl, ?_⟩
  intro b hb
  rw [List.eq_of_mem_replicate hb]
  rfl

theorem ends_newLine (depth : Nat) (cs : List Char) : Ends ((newLine depth).toList ++ cs) := by
  rw [toList_newLine]
  exact .cons _ (by decide)

theorem ends_comma (cs : List Char) : Ends (",".toList ++ cs) := .cons cs (by decide)

theorem resume?_comma (tokens : List Token) (cs : List Char) :
    resume? (.nothing, tokens) (",".toList ++ cs) = resume? (.nothing, .comma :: tokens) cs := rfl

theorem resume?_colon (tokens : List Token) (cs : List Char) :
    resume? (.nothing, tokens) (": ".toList ++ cs) = resume? (.nothing, .colon :: tokens) cs := rfl

theorem resume?_quote {s : String} (hs : ∃ t, Json.text s = ofText t) (tokens : List Token)
    (cs : List Char) :
    resume? (.nothing, tokens) ((quote s).toList ++ cs) =
      resume? (.nothing, .value (.text s) :: tokens) cs := by
  obtain ⟨t, ht⟩ := hs
  obtain rfl := Json.text.inj ht
  have hquote : (quote (String.ofList (Quoted.escape t.toList))).toList ++ cs =
      '"' :: (Quoted.escape t.toList ++ '"' :: cs) := by
    simp [quote]
  rw [hquote, Token.resume?_quoted]

theorem resume?_items (depth : Nat) {items : List Json} (h : ∀ j ∈ items, IsScanned j)
    (tokens : List Token) {cs : List Char} (hcs : Ends cs) :
    resume? (.nothing, tokens) ((indentedItems depth items).toList ++ cs) =
      resume? (.nothing, (itemTokens items).reverse ++ tokens) cs := by
  induction items generalizing tokens with
  | nil => rfl
  | cons item rest ih =>
    obtain ⟨hitem, hrest⟩ := List.forall_mem_cons.1 h
    cases rest with
    | nil =>
      rw [indentedItems, String.toList_append, List.append_assoc, resume?_newLine,
        hitem _ _ _ hcs]
      rfl
    | cons next rest =>
      simp only [indentedItems, itemTokens, String.toList_append, List.append_assoc,
        List.reverse_append, List.reverse_cons]
      rw [resume?_newLine, hitem _ _ _ (ends_comma _), resume?_comma]
      exact ih hrest _

theorem resume?_members (depth : Nat) {members : List (String × Json)}
    (hnames : ∀ m ∈ members, ∃ s, Json.text m.1 = ofText s) (h : ∀ m ∈ members, IsScanned m.2)
    (tokens : List Token) {cs : List Char} (hcs : Ends cs) :
    resume? (.nothing, tokens) ((indentedMembers depth members).toList ++ cs) =
      resume? (.nothing, (memberTokens members).reverse ++ tokens) cs := by
  induction members generalizing tokens with
  | nil => rfl
  | cons m rest ih =>
    obtain ⟨name, value⟩ := m
    obtain ⟨hvalue, hrest⟩ := List.forall_mem_cons.1 h
    obtain ⟨hname, hnames⟩ := List.forall_mem_cons.1 hnames
    cases rest with
    | nil =>
      simp only [indentedMembers, memberTokens, String.toList_append, List.append_assoc]
      rw [resume?_newLine, resume?_quote hname, resume?_colon, hvalue _ _ _ hcs]
      rw [List.reverse_cons, List.reverse_cons, List.append_assoc, List.append_assoc]
      rfl
    | cons next rest =>
      simp only [indentedMembers, memberTokens, String.toList_append, List.append_assoc,
        List.reverse_append, List.reverse_cons]
      rw [resume?_newLine, resume?_quote hname, resume?_colon, hvalue _ _ _ (ends_comma _),
        resume?_comma]
      exact ih hnames hrest _

theorem IsWritten.isScanned {j : Json} (h : IsWritten j) : IsScanned j := by
  induction h with
  | null =>
    intro depth tokens cs hcs
    rw [indented]
    exact Token.resume?_word 'n' ['u', 'l', 'l'] rfl rfl hcs
  | bool b =>
    intro depth tokens cs hcs
    rw [indented]
    cases b with
    | false =>
      exact Token.resume?_word 'f' ['a', 'l', 's', 'e'] rfl rfl hcs
    | true => exact Token.resume?_word 't' ['r', 'u', 'e'] rfl rfl hcs
  | @number s t h =>
    intro depth tokens cs hcs
    have htoken := @Token.resume?_number tokens _ _ h _ hcs
    rw [indented]
    rwa [String.ofList_toList] at htoken
  | text s =>
    intro depth tokens cs _
    rw [ofText, indented]
    exact resume?_quote ⟨s, rfl⟩ tokens cs
  | @array items h ih =>
    intro depth taken cs _
    cases items with
    | nil =>
      rw [indented]
      rfl
    | cons item rest =>
      have hopen (ts : List Token) (ds : List Char) :
          resume? (.nothing, ts) ("[".toList ++ ds) = resume? (.nothing, .openArray :: ts) ds := rfl
      have hclose (ts : List Token) (ds : List Char) :
          resume? (.nothing, ts) ("]".toList ++ ds) =
            resume? (.nothing, .closeArray :: ts) ds := rfl
      simp only [indented, tokens, String.toList_append, List.append_assoc]
      rw [hopen, resume?_items _ ih _ (ends_newLine _ _), resume?_newLine, hclose]
      simp only [List.reverse_append, List.reverse_cons, List.append_assoc, List.cons_append,
        List.nil_append, List.reverse_nil]
  | @object members hnames h ih =>
    intro depth taken cs _
    cases members with
    | nil =>
      rw [indented]
      rfl
    | cons m rest =>
      have hopen (ts : List Token) (ds : List Char) :
          resume? (.nothing, ts) ("\x7b".toList ++ ds) =
            resume? (.nothing, .openObject :: ts) ds := rfl
      have hclose (ts : List Token) (ds : List Char) :
          resume? (.nothing, ts) ("\x7d".toList ++ ds) =
            resume? (.nothing, .closeObject :: ts) ds := rfl
      simp only [indented, tokens, String.toList_append, List.append_assoc]
      rw [hopen, resume?_members _ hnames ih _ (ends_newLine _ _), resume?_newLine, hclose]
      simp only [List.reverse_append, List.reverse_cons, List.append_assoc, List.cons_append,
        List.nil_append, List.reverse_nil]

end Json

namespace Json

/-- The reader puts a value where its tokens stand. -/
def IsPut (j : Json) : Prop :=
  ∀ stack ts, ReadState.run? ⟨stack, .value, none⟩ (j.tokens ++ ts) =
    ReadState.run? (ReadState.put j stack) ts

theorem run?_cons {s next : ReadState} {t : Token} (ts : List Token)
    (h : ReadState.step? s t = some next) :
    ReadState.run? s (t :: ts) = ReadState.run? next ts := by
  rw [ReadState.run?, h]

theorem run?_items {items : List Json} (h : ∀ j ∈ items, IsPut j) (hne : items ≠ [])
    (done : List Json) (stack : List Frame) (ts : List Token) :
    ReadState.run? ⟨.array done :: stack, .value, none⟩ (itemTokens items ++ ts) =
      ReadState.run? ⟨.array (items.reverse ++ done) :: stack, .separator, none⟩ ts := by
  induction items generalizing done with
  | nil => exact absurd rfl hne
  | cons item rest ih =>
    obtain ⟨hitem, hrest⟩ := List.forall_mem_cons.1 h
    cases rest with
    | nil => exact hitem _ _
    | cons next rest =>
      rw [itemTokens, List.append_assoc, hitem, List.cons_append, ReadState.put, run?_cons _ rfl,
        ih hrest (by simp)]
      · simp only [List.reverse_cons, List.append_assoc, List.cons_append, List.nil_append]
      · simp

theorem run?_members {members : List (String × Json)} (h : ∀ m ∈ members, IsPut m.2)
    (hne : members ≠ [])
    (done : List (String × Json)) (stack : List Frame) (ts : List Token) :
    ReadState.run? ⟨.object done :: stack, .name, none⟩ (memberTokens members ++ ts) =
      ReadState.run? ⟨.object (members.reverse ++ done) :: stack, .separator, none⟩ ts := by
  induction members generalizing done with
  | nil => exact absurd rfl hne
  | cons m rest ih =>
    obtain ⟨name, value⟩ := m
    obtain ⟨hvalue, hrest⟩ := List.forall_mem_cons.1 h
    have hstart (ts : List Token) :
        ReadState.run? ⟨.object done :: stack, .name, none⟩ (.value (.text name) :: .colon :: ts) =
          ReadState.run? ⟨.member done name :: stack, .value, none⟩ ts := rfl
    cases rest with
    | nil =>
      rw [memberTokens, List.cons_append, List.cons_append, hstart, hvalue]
      rfl
    | cons next rest =>
      simp only [memberTokens, List.cons_append, List.append_assoc]
      rw [hstart, hvalue, ReadState.put, run?_cons _ rfl, ih hrest (by simp)]
      simp only [List.reverse_cons, List.append_assoc, List.cons_append, List.nil_append]

/-- Where a container may also be closed, its first item is read all the same. -/
theorem run?_firstItem (item : Json) (rest : List Json) (stack : List Frame) (ts : List Token) :
    ReadState.run? ⟨.array [] :: stack, .valueOrClose, none⟩ (itemTokens (item :: rest) ++ ts) =
      ReadState.run? ⟨.array [] :: stack, .value, none⟩ (itemTokens (item :: rest) ++ ts) := by
  have hitem (ts : List Token) :
      ReadState.run? ⟨.array [] :: stack, .valueOrClose, none⟩ (item.tokens ++ ts) =
        ReadState.run? ⟨.array [] :: stack, .value, none⟩ (item.tokens ++ ts) := by
    cases item with
    | array items =>
      simp only [tokens, List.cons_append]
      rfl
    | object members =>
      simp only [tokens, List.cons_append]
      rfl
    | _ => rfl
  cases rest with
  | nil => exact hitem ts
  | cons next rest =>
    rw [itemTokens, List.append_assoc, hitem]
    simp

theorem run?_firstMember (m : String × Json) (rest : List (String × Json)) (stack : List Frame)
    (ts : List Token) :
    ReadState.run? ⟨.object [] :: stack, .nameOrClose, none⟩ (memberTokens (m :: rest) ++ ts) =
      ReadState.run? ⟨.object [] :: stack, .name, none⟩ (memberTokens (m :: rest) ++ ts) := by
  cases rest with
  | nil => rfl
  | cons next rest =>
    simp only [memberTokens, List.cons_append]
    rfl

theorem IsWritten.isPut {j : Json} (h : IsWritten j) : IsPut j := by
  induction h with
  | null | bool | number | text =>
    intro stack ts
    rfl
  | @array items h ih =>
    intro stack ts
    cases items with
    | nil => rfl
    | cons item rest =>
      rw [tokens, List.cons_append, List.cons_append, run?_cons _ rfl, List.append_assoc,
        run?_firstItem, run?_items ih (by simp), List.append_nil, List.cons_append, run?_cons _ rfl,
        List.reverse_reverse, List.nil_append]
  | @object members hnames h ih =>
    intro stack ts
    cases members with
    | nil => rfl
    | cons m rest =>
      rw [tokens, List.cons_append, List.cons_append, run?_cons _ rfl, List.append_assoc,
        run?_firstMember, run?_members ih (by simp), List.append_nil, List.cons_append,
        run?_cons _ rfl, List.reverse_reverse, List.nil_append]

theorem read?_pretty {j : Json} (h : IsWritten j) : read? j.pretty = some j := by
  have hscan : Token.scan? j.pretty.toList = some j.tokens := by
    have hscanned := h.isScanned 0 [] [] .nil
    rw [List.append_nil, List.append_nil] at hscanned
    rw [Token.scan?, pretty, ← Token.resume?, hscanned]
    exact congrArg some j.tokens.reverse_reverse
  have hput := h.isPut [] []
  rw [List.append_nil] at hput
  rw [read?, hscan]
  exact congrArg (Option.bind · (·.result)) hput

end Json

end DistantChunks
