import Typewright.Proofs.Braces
import Typewright.Proofs.MessageFields

/-!
# Blocks of protocol buffer declarations

The braces in the lines of a declaration. Each head that is written twice leaves a brace open, and no other brace is
left open.
-/

namespace Typewright

open RefM Text

/-! ## Lines -/

namespace Text

def braces (lines : List String) : List Char :=
  lines.flatMap fun line => line.toList.filter isBrace

/-- The lines close only braces that they open, and leave `n` of them open. -/
def LinesOpen (n : Nat) (lines : List String) : Prop :=
  Opens n (braces lines)

namespace LinesOpen

variable {m n : Nat} {line : String} {lines others : List String}

theorem nil : LinesOpen 0 [] := Opens.nil

theorem append (h : LinesOpen m lines) (h' : LinesOpen n others) : LinesOpen (m + n) (lines ++ others) := by
  unfold LinesOpen braces
  rw [List.flatMap_append]
  exact Opens.append h h'

theorem single (h : Opens n line.toList) : LinesOpen n [line] := by
  unfold LinesOpen braces
  rw [List.flatMap_singleton]
  exact h.of_filter (by simp)

theorem cons (h : Opens m line.toList) (h' : LinesOpen n lines) : LinesOpen (m + n) (line :: lines) :=
  (single h).append h'

theorem flatMap {α : Type} {f : α → List String} {as : List α} (h : ∀ a ∈ as, LinesOpen 0 (f a)) :
    LinesOpen 0 (as.flatMap f) := by
  induction as with
  | nil => exact .nil
  | cons a rest ih =>
    rw [List.flatMap_cons]
    exact (h a (.head _)).append (ih fun a ha => h a (.tail _ ha))

theorem close (h : LinesOpen (n + 1) lines) : LinesOpen n (lines ++ ["\x7d", ""]) := by
  unfold LinesOpen braces
  rw [List.flatMap_append]
  exact Opens.close h

theorem indent (h : LinesOpen n lines) : LinesOpen n (lines.map ("  " ++ ·)) := by
  have hsame : braces (lines.map ("  " ++ ·)) = braces lines := by
    unfold braces
    rw [List.flatMap_map]
    congr 1
    funext line
    rw [String.toList_append, List.filter_append]
    rfl
  unfold LinesOpen
  rw [hsame]
  exact h

theorem opens_join (h : LinesOpen n lines) : Opens n (join "\n" lines).toList := by
  have hsame : (join "\n" lines).toList.filter isBrace = braces lines := by
    unfold join
    clear h
    induction lines with
    | nil => rfl
    | cons line rest ih =>
      cases rest with
      | nil =>
        rw [String.intercalate_singleton]
        exact (List.flatMap_singleton ..).symm
      | cons next rest =>
        rw [String.intercalate_cons_cons, String.toList_append, String.toList_append, List.filter_append,
          List.filter_append, ih]
        show line.toList.filter isBrace ++ [] ++ _ = _
        rw [List.append_nil]
        rfl
  refine Opens.of_filter ?_ h
  rw [← hsame, List.filter_filter]
  simp

end LinesOpen

end Text

namespace Proto

/-! ## Heads that are written twice -/

mutual

/-- How many heads of messages inside the message are written twice: those of objects that start with a
comment. -/
def Message.heads : Message → Nat
  | .mk _ _ slots => slotHeads slots

/-- How many heads are written twice for fields. -/
def slotHeads : List Slot → Nat
  | [] => 0
  | slot :: rest => slot.heads + slotHeads rest

def Slot.heads : Slot → Nat
  | .mk none _ => 0
  | .mk (some declaration) _ => declaration.heads

/-- How many heads are written twice for a declaration. -/
def Declaration.heads : Declaration → Nat
  | .message m => m.heads
  | .object _ (.mk comment _ slots) => slotHeads slots + if comment.isEmpty then 0 else 1
  | _ => 0

end

/-- How many heads are written twice for declarations in a row. -/
def declarationHeads : List Declaration → Nat
  | [] => 0
  | d :: rest => d.heads + declarationHeads rest

/-! ## Clean declarations -/

/-- The comment closes its braces, and the name has none. -/
structure Member.Clean (m : Member) : Prop where
  comment : Opens 0 m.comment.toList
  name : Braceless m.name.toList

/-- The comment closes its braces, the name has none, and the members are clean. -/
structure Enumeration.Clean (e : Enumeration) : Prop where
  comment : Opens 0 e.comment.toList
  name : Braceless e.name.toList
  members : ∀ m ∈ e.members, m.Clean

/-- The comment closes its braces, and the type and the name have none. -/
structure Field.Clean (f : Field) : Prop where
  comment : Opens 0 f.comment.toList
  type : Braceless f.type.toList
  name : Braceless f.name.toList

mutual

/-- The comments in the message close their braces, and the names have none. If it is silent, messages
inside it have no comment. -/
inductive Message.Clean (silent : Bool) : Message → Prop
  | mk {comment name : String} {slots : List Slot} (said : Opens 0 comment.toList)
      (named : Braceless name.toList) (each : ∀ slot ∈ slots, Slot.Clean silent slot) :
      Message.Clean silent (.mk comment name slots)

/-- The field and the type that is declared for it are clean. -/
inductive Slot.Clean (silent : Bool) : Slot → Prop
  | mk {nested : Option Declaration} {field : Field}
      (declared : ∀ d, nested = some d → Declaration.Clean silent d) (clean : field.Clean) :
      Slot.Clean silent (.mk nested field)

/-- The comments in the declaration close their braces, and the names have none. -/
inductive Declaration.Clean (silent : Bool) : Declaration → Prop
  | enumeration {e : Enumeration} (clean : e.Clean) : Declaration.Clean silent (.enumeration e)
  | message {m : Message} (clean : Message.Clean silent m) : Declaration.Clean silent (.message m)
  | listOf {name item : String} (named : Braceless name.toList) (holds : Braceless item.toList) :
      Declaration.Clean silent (.listOf name item)
  | hollow {comment name : String} (said : Opens 0 comment.toList) (named : Braceless name.toList) :
      Declaration.Clean silent (.hollow comment name)
  | object {comment own name : String} {slots : List Slot} (said : Opens 0 comment.toList)
      (clean : Message.Clean silent (.mk own name slots)) (quiet : silent = true → own = "") :
      Declaration.Clean silent (.object comment (.mk own name slots))

end

theorem linesOpen_comment {text indent : String} (hindent : Braceless indent.toList)
    (h : Opens 0 text.toList) : LinesOpen 0 (commentLine indent text) := by
  have hslashes : Opens 0 "// ".toList := Braceless.opens (by decide)
  unfold commentLine
  split_ifs
  · exact .nil
  · refine .single ?_
    rw [String.toList_append, String.toList_append]
    exact (hindent.opens.append hslashes).append h

theorem opens_headLine {name : String} (h : Braceless name.toList) : Opens 1 (headLine name).toList := by
  have hmessage : Opens 0 "message ".toList := Braceless.opens (by decide)
  have hopen : Opens 1 " \x7b".toList := fun _ => rfl
  unfold headLine
  rw [String.toList_append, String.toList_append]
  exact (hmessage.append h.opens).append hopen

theorem Member.Clean.linesOpen {m : Member} (h : m.Clean) : LinesOpen 0 m.lines := by
  refine (linesOpen_comment (by decide) h.comment).append (.single (Braceless.opens ?_))
  simp only [braceless_concat, h.name, braceless_toString_nat, and_true]
  decide

theorem Enumeration.Clean.linesOpen {e : Enumeration} (h : e.Clean) : LinesOpen 0 e.lines := by
  have hhead : Opens 1 ("enum " ++ e.name ++ " \x7b").toList := by
    have henum : Opens 0 "enum ".toList := Braceless.opens (by decide)
    have hopen : Opens 1 " \x7b".toList := fun _ => rfl
    rw [String.toList_append, String.toList_append]
    exact (henum.append h.name.opens).append hopen
  have hfirst : Opens 0 ("  " ++ upper e.name ++ "_UNSPECIFIED = 0;").toList := by
    refine Braceless.opens (braceless_concat.mpr ⟨braceless_concat.mpr ⟨by decide, ?_⟩, by decide⟩)
    exact braceless_upper h.name
  have hmembers : LinesOpen 0 (e.members.flatMap Member.lines) := .flatMap fun m hm => (h.members m hm).linesOpen
  unfold lines
  refine LinesOpen.close (n := 0) ?_
  exact ((linesOpen_comment (by decide) h.comment).append (.cons hhead (.single hfirst))).append hmembers

theorem Field.Clean.linesOpen {f : Field} (h : f.Clean) : LinesOpen 0 f.lines := by
  have hlabel : Braceless (if f.repeated then "repeated " else "").toList := by
    split_ifs <;> decide
  refine (linesOpen_comment (by decide) h.comment).append (.single (Braceless.opens ?_))
  unfold line
  simp only [braceless_concat, hlabel, h.type, h.name, braceless_toString_nat, and_true]
  decide

theorem linesOpen_block {n : Nat} {comment name : String} {body : List String}
    (said : Opens 0 comment.toList) (named : Braceless name.toList) (h : LinesOpen n body) :
    LinesOpen n (commentLine "" comment ++ headLine name :: (body ++ ["\x7d", ""])) := by
  have hbefore : LinesOpen 0 (commentLine "" comment) := linesOpen_comment (by decide) said
  have hblock : LinesOpen (n + 1) (headLine name :: body) := by
    rw [Nat.add_comm]
    exact .cons (opens_headLine named) h
  have hall := hbefore.append hblock.close
  rwa [Nat.zero_add] at hall

mutual

theorem Message.linesOpen {silent : Bool} : (m : Message) → m.Clean silent → LinesOpen m.heads m.lines
  | .mk comment name slots, h => by
    obtain ⟨said, named, each⟩ := h
    exact linesOpen_block said named (slots_linesOpen slots each)

theorem slots_linesOpen {silent : Bool} : (slots : List Slot) → (∀ slot ∈ slots, slot.Clean silent) →
    LinesOpen (slotHeads slots) (slotLines slots)
  | [], _ => .nil
  | slot :: rest, h =>
    (Slot.linesOpen slot (h slot (.head _))).append
      (slots_linesOpen rest fun slot hslot => h slot (.tail _ hslot))

theorem Slot.linesOpen {silent : Bool} : (slot : Slot) → slot.Clean silent → LinesOpen slot.heads slot.lines
  | .mk none field, h => by
    obtain ⟨_, clean⟩ := h
    exact clean.linesOpen
  | .mk (some declaration) field, h => by
    obtain ⟨declared, clean⟩ := h
    have hnested := (Declaration.linesOpen declaration (declared _ rfl)).indent
    have hblank : Opens 0 "".toList := Braceless.opens (by decide)
    exact (hnested.append (.single hblank)).append clean.linesOpen

theorem Declaration.linesOpen {silent : Bool} : (d : Declaration) → d.Clean silent → LinesOpen d.heads d.lines
  | .enumeration e, h => by
    obtain ⟨clean⟩ := h
    exact clean.linesOpen
  | .message m, h => by
    obtain _ | ⟨clean⟩ := h
    exact Message.linesOpen m clean
  | .listOf name item, h => by
    obtain _ | _ | ⟨named, holds⟩ := h
    have hfield : Opens 0 ("  repeated " ++ item ++ " values = 1;").toList := by
      refine Braceless.opens ?_
      simp only [braceless_concat, holds]
      decide
    have hnothing : Opens 0 "".toList := Braceless.opens (by decide)
    have hbody : LinesOpen 0 ["  repeated " ++ item ++ " values = 1;"] := .single hfield
    have hblock := linesOpen_block hnothing named hbody
    exact hblock
  | .hollow comment name, h => by
    obtain _ | _ | _ | ⟨said, named⟩ := h
    have hbody : LinesOpen 0
        ["  // This message intentionally left empty or will be extended later", "  reserved 1;"] :=
      .cons (Braceless.opens (by decide)) (.single (Braceless.opens (by decide)))
    have hblock := linesOpen_block said named hbody
    exact hblock
  | .object comment (.mk own name slots), h => by
    obtain _ | _ | _ | _ | ⟨said, clean, _⟩ := h
    obtain ⟨_, named, each⟩ := clean
    have hslots := slots_linesOpen slots each
    -- without the first line and the end, a message with a comment still has its head
    have hinner : LinesOpen (Declaration.object comment (.mk own name slots)).heads
        (innerLines (Message.mk own name slots).lines) := by
      rw [innerLines_lines]
      show LinesOpen (slotHeads slots + if own.isEmpty then 0 else 1) _
      rw [Nat.add_comm]
      split_ifs
      · exact LinesOpen.nil.append hslots
      · exact .cons (opens_headLine named) hslots
    have hblock := linesOpen_block said named hinner
    rw [← List.cons_append, ← List.append_assoc] at hblock
    exact hblock

end

mutual

theorem Message.heads_eq_zero : (m : Message) → m.Clean true → m.heads = 0
  | .mk _ _ slots, h => by
    obtain ⟨_, _, each⟩ := h
    exact slotHeads_eq_zero slots each

theorem slotHeads_eq_zero : (slots : List Slot) → (∀ slot ∈ slots, slot.Clean true) → slotHeads slots = 0
  | [], _ => rfl
  | slot :: rest, h => by
    rw [slotHeads, Slot.heads_eq_zero slot (h slot (.head _)),
      slotHeads_eq_zero rest fun slot hslot => h slot (.tail _ hslot)]

theorem Slot.heads_eq_zero : (slot : Slot) → slot.Clean true → slot.heads = 0
  | .mk none _, _ => rfl
  | .mk (some declaration) _, h => by
    obtain ⟨declared, _⟩ := h
    exact Declaration.heads_eq_zero declaration (declared _ rfl)

theorem Declaration.heads_eq_zero : (d : Declaration) → d.Clean true → d.heads = 0
  | .enumeration _, _ => rfl
  | .message m, h => by
    obtain _ | ⟨clean⟩ := h
    exact Message.heads_eq_zero m clean
  | .listOf _ _, _ => rfl
  | .hollow _ _, _ => rfl
  | .object _ (.mk own name slots), h => by
    obtain _ | _ | _ | _ | ⟨_, clean, quiet⟩ := h
    obtain ⟨_, _, each⟩ := clean
    rw [Declaration.heads, slotHeads_eq_zero slots each, quiet rfl]
    rfl

end

/-! ### Declarations in a row -/

theorem declarations_linesOpen {silent : Bool} {ds : List Declaration} (h : ∀ d ∈ ds, d.Clean silent) :
    LinesOpen (declarationHeads ds) (ds.flatMap Declaration.lines) := by
  induction ds with
  | nil => exact .nil
  | cons d rest ih =>
    rw [List.flatMap_cons]
    exact (d.linesOpen (h d (.head _))).append (ih fun d hd => h d (.tail _ hd))

theorem declarationHeads_eq_zero {ds : List Declaration} (h : ∀ d ∈ ds, d.Clean true) : declarationHeads ds = 0 := by
  induction ds with
  | nil => rfl
  | cons d rest ih =>
    rw [declarationHeads, d.heads_eq_zero (h d (.head _)), ih fun d hd => h d (.tail _ hd)]

end Proto

end Typewright
