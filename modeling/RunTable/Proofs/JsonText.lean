import Mathlib.Data.List.Nodup
import RunTable.Proofs.NumberText

/-!
# The text of a value

Rows are grouped by the compact texts of their identifiers, so two identifiers of one text would be
one row. There are no two such values: the first character of a text tells the kind of the value,
and each part of it is read in one way up to the comma, colon or bracket behind it.
-/

namespace RunTable

namespace Json

open Number (Ends)

variable {s t : List Char}

/-! ## Quoted texts -/

/-- The characters that do not stand for themselves between quotes. -/
def escaped : List Char := ['"', '\\'] ++ (List.range 32).map Char.ofNat

theorem escape_of_not_mem {c : Char} (h : c ∉ escaped) : escape c = [c] := by
  unfold escape
  split
  iterate 7 exact absurd (by decide) h
  split
  · next hcontrol =>
    refine absurd (List.mem_append_right _ (List.mem_map.mpr ⟨c.toNat, ?_, Char.ofNat_toNat c⟩)) h
    exact List.mem_range.mpr hcontrol
  · rfl

/-- How many characters stand for one, from the first of them on. -/
def escapeWidth (cs : List Char) : Nat :=
  if cs[0]? = some '\\' then if cs[1]? = some 'u' then 6 else 2 else 1

theorem escape_of_mem {c : Char} (h : c ∈ escaped) : (escape c).head? = some '\\'
    ∧ 2 ≤ (escape c).length ∧ escapeWidth (escape c) = (escape c).length := by
  have hall : escaped.all fun c => (escape c).head? = some '\\' ∧ 2 ≤ (escape c).length
      ∧ escapeWidth (escape c) = (escape c).length := by decide
  exact of_decide_eq_true (List.all_eq_true.mp hall c h)

theorem escapeWidth_escape_append (c : Char) (s : List Char) :
    escapeWidth (escape c ++ s) = (escape c).length := by
  by_cases hmem : c ∈ escaped
  · obtain ⟨-, htwo, hwidth⟩ := escape_of_mem hmem
    rw [← hwidth]
    match escape c, htwo with
    | _ :: _ :: _, _ => rfl
  · have hne : c ≠ '\\' := fun heq => hmem (heq ▸ by decide)
    rw [escape_of_not_mem hmem]
    simp [escapeWidth, hne]

theorem escape_injective {c d : Char} (h : escape c = escape d) : c = d := by
  have hmany : ∀ {c}, c ∈ escaped → (escape c).length ≠ 1 := fun hmem hone => by
    have htwo := (escape_of_mem hmem).2.1
    omega
  by_cases hc : c ∈ escaped <;> by_cases hd : d ∈ escaped
  · have hnodup : (escaped.map escape).Nodup := by decide
    exact List.inj_on_of_nodup_map hnodup hc hd h
  · exact absurd (by rw [h, escape_of_not_mem hd]; rfl) (hmany hc)
  · exact absurd (by rw [← h, escape_of_not_mem hc]; rfl) (hmany hd)
  · rw [escape_of_not_mem hc, escape_of_not_mem hd] at h
    exact List.singleton_inj.mp h

theorem escape_append_inj {c d : Char} (h : escape c ++ s = escape d ++ t) : c = d ∧ s = t := by
  have hlength : (escape c).length = (escape d).length := by
    rw [← escapeWidth_escape_append c s, h, escapeWidth_escape_append]
  obtain ⟨hescape, rfl⟩ := List.append_inj h hlength
  exact ⟨escape_injective hescape, rfl⟩

theorem escape_append_ne_quote (c : Char) (s t : List Char) : escape c ++ s ≠ '"' :: t := by
  obtain ⟨d, ds, hcons, hne⟩ : ∃ d ds, escape c = d :: ds ∧ d ≠ '"' := by
    by_cases hmem : c ∈ escaped
    · obtain ⟨ds, hcons⟩ := List.head?_eq_some_iff.mp (escape_of_mem hmem).1
      exact ⟨_, ds, hcons, by decide⟩
    · exact ⟨c, [], escape_of_not_mem hmem, fun heq => hmem (heq ▸ by decide)⟩
  intro heq
  rw [hcons] at heq
  exact hne (List.cons.inj heq).1

theorem flatMap_escape_append_inj {as bs : List Char}
    (h : as.flatMap escape ++ '"' :: s = bs.flatMap escape ++ '"' :: t) : as = bs ∧ s = t := by
  induction as generalizing bs with
  | nil =>
    cases bs with
    | nil => exact ⟨rfl, (List.cons.inj h).2⟩
    | cons d bs =>
      rw [List.flatMap_cons, List.append_assoc] at h
      exact absurd h.symm (escape_append_ne_quote d _ _)
  | cons c as ih =>
    cases bs with
    | nil =>
      rw [List.flatMap_cons, List.append_assoc] at h
      exact absurd h (escape_append_ne_quote c _ _)
    | cons d bs =>
      rw [List.flatMap_cons, List.flatMap_cons, List.append_assoc, List.append_assoc] at h
      obtain ⟨rfl, hrest⟩ := escape_append_inj h
      obtain ⟨rfl, rfl⟩ := ih hrest
      exact ⟨rfl, rfl⟩

theorem toList_quote (a : String) :
    (quote a).toList = '"' :: (a.toList.flatMap escape ++ ['"']) := by
  simp [quote]

theorem quote_append_inj {a b : String} (h : (quote a).toList ++ s = (quote b).toList ++ t) :
    a = b ∧ s = t := by
  rw [toList_quote, toList_quote, List.cons_append, List.cons_append, List.append_assoc,
    List.append_assoc] at h
  obtain ⟨hchars, rfl⟩ := flatMap_escape_append_inj (List.cons.inj h).2
  exact ⟨String.toList_inj.mp hchars, rfl⟩

/-! ## Values -/

/-- What the text of a value begins with, all numbers taken together. -/
def mark : Json → Char
  | null => 'n'
  | bool true => 't'
  | bool false => 'f'
  | num _ => '0'
  | str _ => '"'
  | arr _ => '['
  | obj _ => '\x7b'

def markOf (c : Char) : Char := if c.isDigit || c == '-' then '0' else c

/-! The characters of a text, from the first on. -/

theorem toList_text_arr_cons (item : Json) (items : List Json) : (text (arr (item :: items))).toList
    = '[' :: (item.text.toList ++ (itemsText items).toList) := by
  simp [text]

theorem toList_text_obj_cons (name : String) (value : Json) (members : List (String × Json)) :
    (text (obj ((name, value) :: members))).toList
      = '\x7b' :: ((quote name).toList ++ ':' :: (value.text.toList
        ++ (membersText members).toList)) := by
  simp [text]

theorem toList_itemsText_cons (item : Json) (items : List Json) : (itemsText (item :: items)).toList
    = ',' :: (item.text.toList ++ (itemsText items).toList) := by
  simp [itemsText]

theorem toList_membersText_cons (name : String) (value : Json) (members : List (String × Json)) :
    (membersText ((name, value) :: members)).toList
      = ',' :: ((quote name).toList ++ ':' :: (value.text.toList
        ++ (membersText members).toList)) := by
  simp [membersText]

theorem exists_head_text (value : Json) :
    ∃ c cs, value.text.toList = c :: cs ∧ markOf c = value.mark := by
  match value with
  | null | bool true | bool false | arr [] | obj [] => exact ⟨_, _, rfl, rfl⟩
  | num n =>
    obtain ⟨p, hp, htext, -⟩ := n.exists_parts
    obtain ⟨c, cs, hcons⟩ := List.exists_cons_of_ne_nil hp.ne_nil
    simp only [text, htext, Number.Parts.chars, Number.Parts.sign, hcons]
    split
    · exact ⟨_, _, rfl, rfl⟩
    · refine ⟨_, _, rfl, ?_⟩
      rw [markOf, hp.whole c (hcons ▸ List.mem_cons_self)]
      rfl
  | str a => exact ⟨_, _, toList_quote a, rfl⟩
  | arr (item :: items) => exact ⟨_, _, toList_text_arr_cons item items, rfl⟩
  | obj ((name, value) :: members) => exact ⟨_, _, toList_text_obj_cons name value members, rfl⟩

theorem mark_eq_of_append_eq {a b : Json} (h : a.text.toList ++ s = b.text.toList ++ t) :
    a.mark = b.mark := by
  obtain ⟨c, cs, ha, hc⟩ := a.exists_head_text
  obtain ⟨d, ds, hb, hd⟩ := b.exists_head_text
  rw [ha, hb] at h
  rw [← hc, ← hd, (List.cons.inj h).1]

theorem text_append_ne_close (a : Json) (s t : List Char) : a.text.toList ++ s ≠ ']' :: t := by
  obtain ⟨c, cs, ha, hc⟩ := a.exists_head_text
  intro heq
  rw [ha] at heq
  have hmark : markOf ']' = a.mark := (List.cons.inj heq).1 ▸ hc
  rcases a with _ | ⟨_ | _⟩ | _ | _ | _ | _ <;> exact absurd hmark (by simp [mark, markOf])

theorem ends_itemsText (items : List Json) : Ends ((itemsText items).toList ++ s) := by
  intro c hc
  cases items with
  | nil =>
    obtain rfl : ']' = c := Option.some.inj hc
    decide
  | cons item items =>
    rw [toList_itemsText_cons] at hc
    obtain rfl : ',' = c := Option.some.inj hc
    decide

theorem ends_membersText (members : List (String × Json)) :
    Ends ((membersText members).toList ++ s) := by
  intro c hc
  cases members with
  | nil =>
    obtain rfl : '\x7d' = c := Option.some.inj hc
    decide
  | cons member members =>
    rw [toList_membersText_cons] at hc
    obtain rfl : ',' = c := Option.some.inj hc
    decide

/-- Two values of one kind, and the same one if a kind has few. -/
inductive SameKind : Json → Json → Prop where
  | null : SameKind null null
  | bool (b : Bool) : SameKind (bool b) (bool b)
  | num (m n : Number) : SameKind (num m) (num n)
  | str (a b : String) : SameKind (str a) (str b)
  | arr (items items' : List Json) : SameKind (arr items) (arr items')
  | obj (members members' : List (String × Json)) : SameKind (obj members) (obj members')

theorem sameKind_of_mark_eq {a b : Json} (h : a.mark = b.mark) : SameKind a b := by
  rcases a with _ | ⟨_ | _⟩ | _ | _ | _ | _ <;> rcases b with _ | ⟨_ | _⟩ | _ | _ | _ | _
  all_goals first | constructor | exact absurd h (by simp [mark])

mutual

/-- A value is read in one way from a text that goes on with something else. -/
theorem text_append_inj (a : Json) {b : Json} {s t : List Char} (hs : Ends s) (ht : Ends t)
    (h : a.text.toList ++ s = b.text.toList ++ t) : a = b ∧ s = t := by
  have hkind := sameKind_of_mark_eq (mark_eq_of_append_eq h)
  -- with the texts among the hypotheses the case split would compute them
  revert h hkind
  match a with
  | null =>
    rintro h ⟨⟩
    exact ⟨rfl, List.append_cancel_left h⟩
  | bool value =>
    rintro h ⟨⟩
    exact ⟨rfl, List.append_cancel_left h⟩
  | num n =>
    rintro h ⟨⟩
    obtain ⟨rfl, rfl⟩ := Number.text_append_inj hs ht h
    exact ⟨rfl, rfl⟩
  | str content =>
    rintro h ⟨⟩
    obtain ⟨rfl, rfl⟩ := quote_append_inj h
    exact ⟨rfl, rfl⟩
  | arr [] =>
    rintro h (_ | _ | _ | _ | ⟨_, _ | ⟨item, items⟩⟩)
    · exact ⟨rfl, List.append_cancel_left h⟩
    · rw [toList_text_arr_cons, List.cons_append, List.append_assoc] at h
      exact absurd (List.cons.inj h).2.symm (text_append_ne_close item _ _)
  | arr (item :: items) =>
    rintro h (_ | _ | _ | _ | ⟨_, _ | ⟨item', items'⟩⟩)
    · rw [toList_text_arr_cons, List.cons_append, List.append_assoc] at h
      exact absurd (List.cons.inj h).2 (text_append_ne_close item _ _)
    · rw [toList_text_arr_cons, toList_text_arr_cons, List.cons_append, List.cons_append,
        List.append_assoc, List.append_assoc] at h
      obtain ⟨rfl, hrest⟩ :=
        text_append_inj item (ends_itemsText _) (ends_itemsText _) (List.cons.inj h).2
      obtain ⟨rfl, rfl⟩ := itemsText_append_inj items hrest
      exact ⟨rfl, rfl⟩
  | obj [] =>
    rintro h (_ | _ | _ | _ | _ | ⟨_, _ | ⟨⟨name, value⟩, members⟩⟩)
    · exact ⟨rfl, List.append_cancel_left h⟩
    · rw [toList_text_obj_cons, toList_quote] at h
      exact absurd (List.cons.inj (List.cons.inj h).2).1 (by decide)
  | obj ((name, value) :: members) =>
    rintro h (_ | _ | _ | _ | _ | ⟨_, _ | ⟨⟨name', value'⟩, members'⟩⟩)
    · rw [toList_text_obj_cons, toList_quote] at h
      exact absurd (List.cons.inj (List.cons.inj h).2).1 (by decide)
    · simp only [toList_text_obj_cons, List.cons_append, List.append_assoc] at h
      obtain ⟨rfl, hvalue⟩ := quote_append_inj (List.cons.inj h).2
      obtain ⟨rfl, hrest⟩ :=
        text_append_inj value (ends_membersText _) (ends_membersText _) (List.cons.inj hvalue).2
      obtain ⟨rfl, rfl⟩ := membersText_append_inj members hrest
      exact ⟨rfl, rfl⟩
termination_by structural a

theorem itemsText_append_inj (items : List Json) {items' : List Json} {s t : List Char}
    (h : (itemsText items).toList ++ s = (itemsText items').toList ++ t) :
    items = items' ∧ s = t := by
  revert h
  match items, items' with
  | [], [] =>
    intro h
    exact ⟨rfl, List.append_cancel_left h⟩
  | [], item :: items =>
    intro h
    rw [toList_itemsText_cons] at h
    exact absurd (List.cons.inj h).1 (by decide)
  | item :: items, [] =>
    intro h
    rw [toList_itemsText_cons] at h
    exact absurd (List.cons.inj h).1 (by decide)
  | item :: items, item' :: items' =>
    intro h
    simp only [toList_itemsText_cons, List.cons_append, List.append_assoc] at h
    obtain ⟨rfl, hrest⟩ :=
      text_append_inj item (ends_itemsText _) (ends_itemsText _) (List.cons.inj h).2
    obtain ⟨rfl, rfl⟩ := itemsText_append_inj items hrest
    exact ⟨rfl, rfl⟩
termination_by structural items

theorem membersText_append_inj (members : List (String × Json))
    {members' : List (String × Json)} {s t : List Char}
    (h : (membersText members).toList ++ s = (membersText members').toList ++ t) :
    members = members' ∧ s = t := by
  revert h
  match members, members' with
  | [], [] =>
    intro h
    exact ⟨rfl, List.append_cancel_left h⟩
  | [], (name, value) :: members =>
    intro h
    rw [toList_membersText_cons] at h
    exact absurd (List.cons.inj h).1 (by decide)
  | (name, value) :: members, [] =>
    intro h
    rw [toList_membersText_cons] at h
    exact absurd (List.cons.inj h).1 (by decide)
  | (name, value) :: members, (name', value') :: members' =>
    intro h
    simp only [toList_membersText_cons, List.cons_append, List.append_assoc] at h
    obtain ⟨rfl, hvalue⟩ := quote_append_inj (List.cons.inj h).2
    obtain ⟨rfl, hrest⟩ :=
      text_append_inj value (ends_membersText _) (ends_membersText _) (List.cons.inj hvalue).2
    obtain ⟨rfl, rfl⟩ := membersText_append_inj members hrest
    exact ⟨rfl, rfl⟩
termination_by structural members

end

/-- No two values have one text. -/
theorem text_injective : Function.Injective text := fun a b h =>
  have hends : Ends [] := fun _ hc => by cases hc
  (text_append_inj a hends hends (by rw [h])).1

end Json

end RunTable
