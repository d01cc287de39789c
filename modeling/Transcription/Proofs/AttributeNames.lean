/-
Transcription.Proofs.AttributeNames — the names of the attributes of a word.

A word element begins with one start tag, on one level and on three alike, and what stands in it
is told by the headword and the remarks on the word (`tags_word`). The names are read from the
tag as they stand there (`attributeNames_startTag`), values being passed over between quotes.

A headword gives two attributes of its own, the pointers of all remarks are gathered in a single
one, and a remark gives each name at most once (`exists_keys_sublist`). Other attributes come
remark by remark, so that two remarks of one kind give the same name twice.

**`nodup_attributeNames_iff`**: the names in the start tag of a word are distinct exactly if no
two remarks on the word give an attribute of the same name.
-/
import Mathlib.Data.List.Nodup
import Transcription.Proofs.WordNumbers

namespace Transcription

open Markup

/-! ## 1. Reading names -/

namespace Markup

/-- The names of attributes from a place in a tag on, where some of a name has been read or a
value in quotes has begun. -/
def namesFrom (quoted : Bool) (name : Text) : Text → List Text
  | [] => []
  | c :: t =>
      if c = '\x22' then namesFrom (!quoted) [] t
      else if quoted then namesFrom true [] t
      else if c = ' ' then namesFrom false [] t
      else if c = '=' then name :: namesFrom false [] t
      else namesFrom false (name ++ [c]) t

/-- The names of the attributes in a tag. -/
def attributeNames (tag : Text) : List Text :=
  namesFrom false [] tag

section Names

variable {t name value rest : Text} {table : Table Text}

/-- A value is passed over up to its closing quote. -/
theorem namesFrom_value (h : Inert value) (name rest : Text) :
    namesFrom true name (value ++ '\x22' :: rest) = namesFrom false [] rest := by
  induction value generalizing name with
  | nil => exact if_pos rfl
  | cons c value ih =>
    obtain ⟨hc, hv⟩ := List.forall_mem_cons.1 h
    rw [List.cons_append, namesFrom, if_neg hc.2.2, if_pos rfl]
    exact ih hv []

/-- No sign that ends a name in a tag stands in a name. -/
theorem ne_of_isName (hn : isName name = true) : ∀ c ∈ name, c ≠ '\x22' ∧ c ≠ ' ' ∧ c ≠ '=' := by
  have signs : ∀ c ∈ ['\x22', ' ', '='], Xml.isNameRest c = false :=
    Text.forall_of_check (by decide)
  intro c hc
  have goesOn := isNameRest_of_isName hn c hc
  have other (d : Char) (hd : d ∈ ['\x22', ' ', '=']) : c ≠ d := by
    rintro rfl
    rw [signs c hd] at goesOn
    cases goesOn
  exact ⟨other _ (by decide), other _ (by decide), other _ (by decide)⟩

/-- Characters of a name are read one after the other. -/
theorem namesFrom_name (plain : ∀ c ∈ t, c ≠ '\x22' ∧ c ≠ ' ' ∧ c ≠ '=') (name rest : Text) :
    namesFrom false name (t ++ rest) = namesFrom false (name ++ t) rest := by
  induction t generalizing name with
  | nil => rw [List.append_nil, List.nil_append]
  | cons c t ih =>
    obtain ⟨⟨quote, blank, equals⟩, ht⟩ := List.forall_mem_cons.1 plain
    rw [List.cons_append, namesFrom, if_neg quote, if_neg (by decide), if_neg blank, if_neg equals,
      ih ht, List.append_assoc, List.singleton_append]

/-- An attribute has its name read, whatever comes before it. -/
theorem namesFrom_attr (hn : isName name = true) (value before rest : Text) :
    namesFrom false before (attr name value ++ rest) = name :: namesFrom false [] rest := by
  have shape : attr name value ++ rest
      = ' ' :: (name ++ '=' :: '\x22' :: (escape value ++ '\x22' :: rest)) := by
    have equals : ("=\"" : Text) = ['=', '\x22'] := rfl
    have quote : ("\"" : Text) = ['\x22'] := rfl
    rw [attr, equals, quote]
    simp only [List.cons_append, List.append_assoc, List.nil_append]
  have blank (t : Text) : namesFrom false before (' ' :: t) = namesFrom false [] t := rfl
  have equals (t : Text) :
      namesFrom false name ('=' :: '\x22' :: t) = name :: namesFrom true [] t := rfl
  rw [shape, blank, namesFrom_name (ne_of_isName hn), List.nil_append, equals,
    namesFrom_value (inert_escape value)]

theorem namesFrom_attributes (hn : ∀ entry ∈ table, isName entry.1 = true) (before : Text) :
    namesFrom false before (attributes table ++ ['>']) = table.keys := by
  induction table generalizing before with
  | nil => rfl
  | cons entry table ih =>
    obtain ⟨he, ht⟩ := List.forall_mem_cons.1 hn
    have step : attributes (entry :: table) ++ ['>']
        = attr entry.1 entry.2 ++ (attributes table ++ ['>']) := List.append_assoc ..
    rw [step, namesFrom_attr he, ih ht]
    rfl

/-- The names in a start tag are the keys of the table that it was written from. -/
theorem attributeNames_startTag (hn : isName name = true)
    (ht : ∀ entry ∈ table, isName entry.1 = true) :
    attributeNames (startTag name (attributes table)) = table.keys := by
  have start : '<' :: name ++ attributes table ++ ['>']
      = ['<'] ++ (name ++ (attributes table ++ ['>'])) := by simp
  rw [attributeNames, startTag, start, namesFrom_name (Text.forall_of_check (by decide)),
    namesFrom_name (ne_of_isName hn), namesFrom_attributes ht]

end Names

end Markup

namespace Edition

variable {s : Settings} {a : Apparatus} {ns : List Node} {progress : Progress} {index : Int}

/-! ## 2. The start tag of a word -/

section Words

/-- Nodes by themselves take no index. -/
theorem wordIndex_leaves (s : Settings) (a : Apparatus) (ns : List Node) (progress : Progress) :
    (parts s a (ns.map .leaf) progress).2.wordIndex = progress.wordIndex := by
  have run : parts s a (ns.map .leaf) progress = _ :=
    unnumbered_leaves s a ns progress progress.wordIndex
  rw [run]

theorem write_startTag (r : Readings) (tag attrs notes : Text) :
    ∃ rest, r.write tag attrs notes = startTag tag attrs ++ rest := by
  have front : (">\n  <choice>\n    <me:facs>" : Text)
      = ['>'] ++ "\n  <choice>\n    <me:facs>" := rfl
  rw [Readings.write, front, startTag]
  simp only [List.append_assoc]
  exact ⟨_, rfl⟩

theorem wordSingle_startTag {content : Text} (h : (wordSingle a content progress).1 ≠ []) :
    ∃ rest, (wordSingle a content progress).1
      = startTag "w" (attributes (a.wordAttributes progress.wordIndex)) ++ rest := by
  have some : content ≠ [] := fun none => h (by rw [none]; rfl)
  have front : ("<w" : Text) = '<' :: "w" := rfl
  have inner : '>' :: content = ['>'] ++ content := rfl
  rw [wordSingle_run some, front, inner, startTag]
  simp only [List.append_assoc]
  exact ⟨_, rfl⟩

/-- A word that is written begins with its start tag, on one level and on three. -/
theorem word_startTag
    (h : (part s a (.group .word (ns.map .leaf)) progress).1 ≠ []) :
    ∃ rest, (part s a (.group .word (ns.map .leaf)) progress).1
      = startTag "w" (attributes (a.wordAttributes progress.wordIndex)) ++ rest := by
  rw [part] at h ⊢
  cases hm : s.multiLevel with
  | true =>
    rw [hm] at h
    show ∃ rest, (wordLevels a (ns.map .leaf) progress).1 = _
    have run : (wordLevels a (ns.map .leaf) progress).1 ≠ [] := h
    rw [wordLevels_run] at run ⊢
    dsimp only at run ⊢
    split at run
    · exact absurd rfl run
    · next shown =>
      rw [if_neg shown]
      exact write_startTag ..
  | false =>
    rw [hm] at h
    let inside := parts s a (ns.map .leaf) progress
    have run : (wordSingle a inside.1 inside.2).1 ≠ [] := h
    have started := wordSingle_startTag run
    rw [wordIndex_leaves] at started
    exact started

/-- The first tag of a word is its start tag. -/
theorem tags_word (h : (part s a (.group .word (ns.map .leaf)) progress).1 ≠ []) :
    (tags (part s a (.group .word (ns.map .leaf)) progress).1).head?
      = some (startTag "w" (attributes (a.wordAttributes progress.wordIndex))) := by
  obtain ⟨rest, text⟩ := word_startTag h
  have named : isName "w" = true := by decide
  have complete : Complete (.tag _) := complete_startTag named
    (inTag_attributes (named_wordAttributes a progress.wordIndex))
  have cut := complete rest
  rw [pieceText] at cut
  rw [text, tags, cut]
  rfl

end Words

/-! ## 3. The names of a word -/

/-- Both remarks give a word an attribute of the same name. -/
def Clash (r r' : Remark) : Prop :=
  ∃ name ∈ (ofRemark r).attrs.keys, name ∈ (ofRemark r').attrs.keys

instance (r r' : Remark) : Decidable (Clash r r') :=
  inferInstanceAs (Decidable (∃ name ∈ (ofRemark r).attrs.keys, name ∈ (ofRemark r').attrs.keys))

/-- The names of the attributes that one remark may give. -/
def remarkNames : List (List Text) :=
  [[], ["cert"], ["reason", "cert"], ["place", "type", "hand"], ["rend", "hand"],
    ["reason", "resp"]]

section Names

variable {r : Remark} {table more : Table Text} {names others : List Text}

theorem keys_append_sublist (ht : table.keys.Sublist names) (hm : more.keys.Sublist others) :
    (table ++ more).keys.Sublist (names ++ others) := by
  rw [Table.keys, List.map_append]
  exact ht.append hm

theorem keys_attr? {α : Type} (name : Text) (encode : α → Text) (value : Option α) :
    (attr? name encode value).keys.Sublist [name] := by
  cases value with
  | none => exact List.nil_sublist _
  | some _ => exact List.Sublist.refl _

theorem exists_keys_ofObservation (o : Remark.Observation) :
    ∃ names ∈ remarkNames, (ofObservation o).attrs.keys.Sublist names := by
  unfold ofObservation
  split
  · exact ⟨["reason", "cert"], by decide,
      keys_append_sublist (keys_attr? ..) (keys_attr? ..)⟩
  · exact ⟨["place", "type", "hand"], by decide,
      keys_append_sublist (keys_append_sublist (keys_attr? ..) (keys_attr? ..)) (keys_attr? ..)⟩
  · exact ⟨["rend", "hand"], by decide, keys_append_sublist (keys_attr? ..) (keys_attr? ..)⟩
  · exact ⟨["reason", "resp"], by decide, keys_append_sublist (keys_attr? ..) (keys_attr? ..)⟩
  · exact ⟨[], by decide, List.nil_sublist _⟩

/-- The names that a remark gives are some of those that go together. -/
theorem exists_keys_sublist (r : Remark) :
    ∃ names ∈ remarkNames, (ofRemark r).attrs.keys.Sublist names := by
  unfold ofRemark
  split
  · exact ⟨[], by decide, List.nil_sublist _⟩
  · exact ⟨["cert"], by decide, keys_attr? ..⟩
  · exact exists_keys_ofObservation _
  · exact ⟨[], by decide, List.nil_sublist _⟩

/-- One remark gives no name twice. -/
theorem nodup_keys_ofRemark (r : Remark) : (ofRemark r).attrs.keys.Nodup := by
  obtain ⟨names, shape, sub⟩ := exists_keys_sublist r
  have distinct : ∀ names ∈ remarkNames, names.Nodup := by decide
  exact (distinct names shape).sublist sub

/-- No remark gives the names that headwords and pointers have. -/
theorem not_mem_keys_ofRemark {name : Text} (r : Remark)
    (hn : name ∈ (["lemma", "me:msa", "ana"] : List Text)) : name ∉ (ofRemark r).attrs.keys := by
  obtain ⟨names, shape, sub⟩ := exists_keys_sublist r
  have apart : ∀ names ∈ remarkNames, ∀ name ∈ (["lemma", "me:msa", "ana"] : List Text),
      name ∉ names := by decide
  exact fun h => apart names shape name hn (sub.subset h)

/-- The names that the headword of a word and all of the remarks together give. -/
theorem exists_keys_wordAttributes (a : Apparatus) (index : Int) :
    ∃ front back : List Text, front.Sublist ["lemma", "me:msa"] ∧ back.Sublist ["ana"]
      ∧ (a.wordAttributes index).keys
        = front ++ ((a.remarksOn index).flatMap (fun r => (ofRemark r).attrs.keys) ++ back) := by
  have headword : (a.headwordAttributes index).keys.Sublist ["lemma", "me:msa"] := by
    unfold Apparatus.headwordAttributes
    split
    · exact List.nil_sublist _
    · exact List.Sublist.refl _
  let pointers := ((a.remarksOn index).map ofRemark).flatMap Addendum.pointers
  have ana := keys_attr? "ana" (Text.join " ") (if pointers.isEmpty then none else some pointers)
  refine ⟨_, _, headword, ana, ?_⟩
  simp only [Apparatus.wordAttributes, Apparatus.remarkAttributes, Table.keys, List.map_append,
    List.map_flatMap, List.flatMap_map, pointers]

/-- The names of a word are distinct exactly if no two remarks clash. -/
theorem nodup_wordAttributes_iff (a : Apparatus) (index : Int) :
    (a.wordAttributes index).keys.Nodup ↔ (a.remarksOn index).Pairwise fun r r' => ¬Clash r r' := by
  obtain ⟨front, back, hf, hb, shape⟩ := exists_keys_wordAttributes a index
  have others : ∀ name ∈ (["lemma", "me:msa"] : List Text) ++ (["ana"] : List Text),
      name ∉ (a.remarksOn index).flatMap fun r => (ofRemark r).attrs.keys := by
    intro name hn given
    obtain ⟨r, -, hr⟩ := List.mem_flatMap.1 given
    exact not_mem_keys_ofRemark r hn hr
  have fromRemarks : ((a.remarksOn index).flatMap fun r => (ofRemark r).attrs.keys).Nodup
      ↔ (a.remarksOn index).Pairwise fun r r' => ¬Clash r r' := by
    rw [List.nodup_flatMap, and_iff_right fun r _ => nodup_keys_ofRemark r]
    refine List.Pairwise.iff fun r r' => ?_
    simp only [Function.onFun, List.disjoint_left, Clash, not_exists, not_and]
  have ends : front.Disjoint back := by
    have apart : ∀ name ∈ (["lemma", "me:msa"] : List Text), name ∉ (["ana"] : List Text) := by
      decide
    exact fun name hn hm => apart name (hf.subset hn) (hb.subset hm)
  have before : front.Disjoint ((a.remarksOn index).flatMap fun r => (ofRemark r).attrs.keys) :=
    fun name hn => others name (List.mem_append_left _ (hf.subset hn))
  have after : ((a.remarksOn index).flatMap fun r => (ofRemark r).attrs.keys).Disjoint back :=
    fun name given hn =>
      others name (List.mem_append_right _ (hb.subset hn)) given
  have hf : front.Nodup := .sublist hf (by decide)
  have hb : back.Nodup := .sublist hb (by decide)
  rw [shape, List.nodup_append', List.nodup_append', fromRemarks, List.disjoint_append_right]
  simp only [hf, hb, ends, before, after, true_and, and_true]

/-- **The names of a word are distinct exactly if its remarks do not clash.** For all settings,
every apparatus and every word that is written, the first tag of its markup is a start tag `w`,
and the names of the attributes in this tag are distinct exactly if no two of the remarks on the
word give an attribute of the same name. Headwords and pointers never repeat a name. -/
theorem nodup_attributeNames_iff
    (h : (part s a (.group .word (ns.map .leaf)) progress).1 ≠ []) :
    ∃ tag, (tags (part s a (.group .word (ns.map .leaf)) progress).1).head? = some tag
      ∧ tagName tag = "w"
      ∧ ((attributeNames tag).Nodup
        ↔ (a.remarksOn progress.wordIndex).Pairwise fun r r' => ¬Clash r r') := by
  have named := named_wordAttributes a progress.wordIndex
  refine ⟨_, tags_word h, tagName_startTag (by decide) (inTag_attributes named), ?_⟩
  rw [attributeNames_startTag (by decide) named, nodup_wordAttributes_iff]

/-- A sure observation about the writing of the first word. -/
def sureOf (feature : Remark.Feature) : Remark :=
  ⟨[], .paleographic, .word 0, .paleographic feature none (some (.integer 1)), none⟩

/-- Two remarks of which only one says how sure it is. -/
theorem nodup_attributeNames_apart :
    let r : Remark := ⟨[], .paleographic, .span 0 1, .paleographic .erasure none none, none⟩
    let a : Apparatus := { Apparatus.empty with
      headwords := [(0, ⟨"p", "xNC", none⟩)], remarks := some ⟨"1.0", [sureOf .damage, r]⟩ }
    let word := (part .plain a (.group .word (List.map .leaf [.text ['a']])) .start).1
    word ≠ [] ∧ ∃ tag, (tags word).head? = some tag ∧ tagName tag = "w"
      ∧ (attributeNames tag).Nodup := by
  intro r a word
  have shown : word ≠ [] := by decide +kernel
  obtain ⟨tag, first, name, distinct⟩ := nodup_attributeNames_iff shown
  exact ⟨shown, tag, first, name, distinct.2 (by decide)⟩

/-- Two remarks that both say how sure they are: the word has two attributes `cert`. -/
theorem not_nodup_attributeNames_sure :
    let a : Apparatus := { Apparatus.empty with
      remarks := some ⟨"1.0", [sureOf .unclear, sureOf .damage]⟩ }
    let s : Settings := { Settings.plain with wordWrap := true }
    let tag : Text := "<w cert=\"high\" cert=\"high\" ana=\"#paleo:unclear #paleo:damage\">"
    ofText s a ['a'] = .ok (tag ++ "a</w>\n") ∧ ¬(attributeNames tag).Nodup := by
  intro a s tag
  have lexed : Lexer.lex ['a'] = .ok [.text ['a']] := by
    rw [Lexer.lex_char rfl, Lexer.lex_nil]
    rfl
  refine ⟨?_, by decide +kernel⟩
  rw [ofText, lexed]
  refine congrArg Except.ok ?_
  decide +kernel

end Names

end Edition

end Transcription
