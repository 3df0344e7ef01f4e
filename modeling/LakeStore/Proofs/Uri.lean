import LakeStore.Config.Basic
import LakeStore.Proofs.Path.Canonical
import LakeStore.Proofs.Path.Host
import LakeStore.Uri
import Mathlib.Data.List.TakeWhile

/-!
This module contains the reading of addresses that a store hands out. Reading one gives it back as
long as its path has no character that starts a query or a fragment: the path is written as it is,
and cut off there when it is read.
-/

namespace LakeStore

theorem mem_of_mem_splitSlashes {text piece : List Char} {c : Char}
    (hpiece : piece ∈ splitSlashes text) (hc : c ∈ piece) : c ∈ text := by
  induction text generalizing piece with
  | nil =>
    have hnil : piece = [] := by simpa [splitSlashes] using hpiece
    rw [hnil] at hc
    cases hc
  | cons first rest ih =>
    unfold splitSlashes at hpiece
    split at hpiece
    . cases hpiece with
      | head => cases hc
      | tail _ hpiece => exact .tail _ (ih hpiece hc)
    . split at hpiece
      . next hnil => exact absurd hnil (splitSlashes_ne_nil rest)
      . next start pieces heq =>
        rw [heq] at ih
        cases hpiece with
        | tail _ hpiece => exact .tail _ (ih (.tail _ hpiece) hc)
        | head =>
          cases hc with
          | head => exact .head _
          | tail _ hc => exact .tail _ (ih (.head _) hc)

theorem mem_foldl_enter {path pieces : List String} {name : String}
    (h : name ∈ pieces.foldl enter path) :
    name ∈ path ∨ name ∈ pieces := by
  induction pieces generalizing path with
  | nil => exact .inl h
  | cons piece rest ih =>
    rw [List.foldl_cons] at h
    cases ih h with
    | inr hrest => exact .inr (.tail _ hrest)
    | inl hentered =>
      unfold enter at hentered
      split at hentered
      . exact .inl hentered
      . split at hentered
        . exact .inl (List.dropLast_subset path hentered)
        . split at hentered
          . exact .inl hentered
          . rw [List.mem_append, List.mem_singleton] at hentered
            cases hentered with
            | inl hpath => exact .inl hpath
            | inr heq => rw [heq]; exact .inr (.head _)

theorem mem_of_mem_absolutePath {text : String} {c : Char} (h : c ∈ (absolutePath text).toList) :
    c = '/' ∨ c ∈ text.toList := by
  unfold absolutePath rooted at h
  split at h
  . exact .inl (by simpa using h)
  . rw [toList_slashed, List.mem_flatMap] at h
    obtain ⟨characters, hname, hc⟩ := h
    rw [List.mem_map] at hname
    obtain ⟨name, hname, rfl⟩ := hname
    rw [List.mem_cons] at hc
    cases hc with
    | inl hslash => exact .inl hslash
    | inr hc =>
      right
      have hpiece := (mem_foldl_enter hname).resolve_left List.not_mem_nil
      obtain ⟨piece, hsplit, rfl⟩ := List.mem_map.mp hpiece
      rw [String.toList_ofList] at hc
      exact mem_of_mem_splitSlashes hsplit hc

namespace Config

structure IsAccount (account : String) : Prop where
  nonempty : account ≠ ""
  unbroken : ∀ c ∈ account.toList, breaksAccount c = false

theorem isAccount_iff (account : String) :
    IsAccount account ↔ account ≠ "" ∧ account.toList.any breaksAccount = false := by
  rw [List.any_eq_false]
  constructor
  . intro h
    exact ⟨h.nonempty, fun c hc => by simp [h.unbroken c hc]⟩
  . rintro ⟨hnonempty, hany⟩
    exact ⟨hnonempty, fun c hc => by simpa using hany c hc⟩

theorem validate_eq_ok_iff (config : Config) : config.validate = .ok () ↔
    IsAccount config.account ∧ ∀ root,
      config.store = .directory root → HostPath.isAbsolute root := by
  unfold validate
  rw [isAccount_iff]
  by_cases hempty : config.account = ""
  . rw [if_pos hempty]
    exact ⟨nofun, fun h => absurd hempty h.1.1⟩
  . rw [if_neg hempty]
    by_cases hany : config.account.toList.any breaksAccount
    . rw [if_pos hany]
      exact ⟨nofun, fun h => absurd hany (by simp [h.1.2])⟩
    . rw [if_neg hany]
      have haccount := And.intro hempty (Bool.eq_false_iff.mpr hany)
      cases config.store with
      | memory => exact ⟨fun _ => ⟨haccount, nofun⟩, fun _ => rfl⟩
      | directory root =>
        dsimp only
        by_cases habsolute : HostPath.isAbsolute root
        . rw [if_pos habsolute]
          exact ⟨fun _ => ⟨haccount, fun other heq => by cases heq; exact habsolute⟩, fun _ => rfl⟩
        . rw [if_neg habsolute]
          exact ⟨nofun, fun h => absurd (h.2 root rfl) habsolute⟩

theorem isAccount_of_validate {config : Config} (h : config.validate = .ok ()) :
    IsAccount config.account :=
  ((validate_eq_ok_iff config).mp h).1

end Config

namespace RemoteUri

theorem cutAt_append {mark before after : List Char} {first : Char} {others : List Char}
    (hmark : mark = first :: others) (h : first ∉ before) :
    cutAt mark (before ++ mark ++ after) = some (before, after) := by
  induction before with
  | nil =>
    have hpre : mark <+: mark ++ after := List.prefix_append mark after
    rw [List.nil_append, hmark, List.cons_append]
    unfold cutAt
    rw [← List.cons_append, ← hmark, if_pos hpre, List.drop_left]
  | cons c rest ih =>
    rw [List.mem_cons, not_or] at h
    rw [List.cons_append, List.cons_append]
    unfold cutAt
    have hnot : ¬ mark <+: c :: (rest ++ mark ++ after) := by
      rw [hmark, List.cons_prefix_cons]
      exact fun hpre => h.1 hpre.1
    rw [if_neg hnot, ih h.2]
    rfl

theorem eq_append_of_cutAt {mark text before after : List Char}
    (h : cutAt mark text = some (before, after)) :
    text = before ++ mark ++ after := by
  induction text generalizing before with
  | nil =>
    unfold cutAt at h
    split at h
    . next hmark =>
      cases h
      rw [hmark]
      rfl
    . cases h
  | cons c rest ih =>
    unfold cutAt at h
    split at h
    . next hpre =>
      cases h
      exact (List.prefix_iff_eq_append.mp hpre).symm
    . rw [Option.map_eq_some_iff] at h
      obtain ⟨⟨front, back⟩, hcut, heq⟩ := h
      cases heq
      rw [ih hcut]
      rfl

structure Parts where
  scheme : String
  account : String
  tail : String

def accountEnds : List Char := ['/', '?', '#']

/-- Whether a text is made of these parts. -/
structure Parts.Spell (parts : Parts) (text : String) : Prop where
  text : text = parts.scheme ++ "://" ++ parts.account ++ parts.tail
  someScheme : parts.scheme ≠ ""
  scheme : ∀ c ∈ parts.scheme.toList, c.isAlpha ∨ c.isDigit ∨ c ∈ ['+', '-', '.']
  someAccount : parts.account ≠ ""
  account : ∀ c ∈ parts.account.toList, c ∉ accountEnds
  tail : ∀ c ∈ parts.tail.toList.head?, c ∈ accountEnds

def kept (path : String) : String :=
  String.ofList (path.toList.takeWhile (!endsPath ·))

theorem kept_eq_self_iff (path : String) : kept path = path ↔ ∀ c ∈ path.toList,
      endsPath c = false := by
  unfold kept
  rw [← String.toList_inj, String.toList_ofList, List.takeWhile_eq_self_iff]
  simp

theorem endsPath_of_mem_kept {path : String} {c : Char} (h : c ∈ (kept path).toList) :
    endsPath c = false := by
  unfold kept at h
  rw [String.toList_ofList] at h
  simpa using List.mem_takeWhile_imp h

def Parts.address (parts : Parts) : RemoteUri where
  scheme := String.ofList (parts.scheme.toList.map Char.toLower)
  account := parts.account
  path := absolutePath (kept parts.tail)

theorem isSchemeChar_iff {c : Char} :
    isSchemeChar c ↔ c.isAlpha ∨ c.isDigit ∨ c ∈ ['+', '-', '.'] := by
  unfold isSchemeChar Char.isAlphanum
  simp [or_assoc]

theorem endsPath_of_notMem {c : Char} (h : c ∉ accountEnds) : endsPath c = false := by
  unfold endsPath
  simp_all [accountEnds]

namespace Parts

variable {parts : Parts} {text : String}

theorem Spell.cutAt (h : parts.Spell text) : cutAt "://".toList text.toList =
    some (parts.scheme.toList, parts.account.toList ++ parts.tail.toList) := by
  have hcolon : ':' ∉ parts.scheme.toList := by
    intro hmem
    exact absurd (h.scheme ':' hmem) (by decide)
  have htext : text.toList =
      parts.scheme.toList ++ "://".toList ++ (parts.account.toList ++ parts.tail.toList) := by
    rw [h.text]
    simp
  rw [htext]
  exact cutAt_append rfl hcolon

theorem Spell.parse (h : parts.Spell text) : parse text = .ok parts.address := by
  have hends : ∀ c ∈ parts.account.toList, (!endsPath c) = true := by
    intro c hc
    rw [endsPath_of_notMem (h.account c hc)]
    rfl
  have hslash : ∀ c ∈ parts.account.toList, decide (c ≠ '/') = true := by
    intro c hc
    rw [decide_eq_true_iff]
    rintro rfl
    exact h.account '/' hc (.head _)
  have hkept : (parts.account.toList ++ parts.tail.toList).takeWhile (!endsPath ·) =
      parts.account.toList ++ (kept parts.tail).toList := by
    unfold kept
    rw [List.takeWhile_append_of_pos hends, String.toList_ofList]
  -- What is kept of the tail is empty, or starts with the slash that ends the account.
  have hhead : (kept parts.tail).toList = [] ∨ ∃ rest, (kept parts.tail).toList = '/' :: rest := by
    cases htail : parts.tail.toList with
    | nil =>
      left
      unfold kept
      rw [htail]
      rfl
    | cons c rest =>
      have hc := h.tail c (by rw [htail]; rfl)
      unfold kept
      rw [htail, String.toList_ofList]
      unfold accountEnds at hc
      obtain rfl | rfl | rfl := by simpa using hc
      . exact .inr ⟨_, List.takeWhile_cons_of_pos rfl⟩
      . exact .inl (List.takeWhile_cons_of_neg (by decide))
      . exact .inl (List.takeWhile_cons_of_neg (by decide))
  have htake : (parts.account.toList ++ (kept parts.tail).toList).takeWhile (· ≠ '/') =
      parts.account.toList := by
    rw [List.takeWhile_append_of_pos hslash]
    obtain hnil | ⟨rest, hcons⟩ := hhead
    . rw [hnil, List.takeWhile_nil, List.append_nil]
    . rw [hcons, List.takeWhile_cons_of_neg (by decide), List.append_nil]
  have hdrop : (parts.account.toList ++ (kept parts.tail).toList).dropWhile (· ≠ '/') =
      (kept parts.tail).toList := by
    rw [List.dropWhile_append_of_pos hslash]
    obtain hnil | ⟨rest, hcons⟩ := hhead
    . rw [hnil, List.dropWhile_nil]
    . rw [hcons, List.dropWhile_cons_of_neg (by decide)]
  have hscheme : ¬ (parts.scheme.toList = [] ∨ ¬ parts.scheme.toList.all isSchemeChar) := by
    rw [not_or, not_not, List.all_eq_true]
    exact ⟨by simpa using h.someScheme, fun c hc => isSchemeChar_iff.mpr (h.scheme c hc)⟩
  unfold RemoteUri.parse
  rw [h.cutAt]
  dsimp only
  rw [hkept, htake, hdrop]
  rw [if_neg hscheme, if_neg (by simpa using h.someAccount)]
  rw [String.ofList_toList, String.ofList_toList]
  rfl

end Parts

theorem toList_absolutePath (path : String) : ∃ rest, (absolutePath path).toList = '/' :: rest := by
  unfold absolutePath rooted
  split
  . exact ⟨[], rfl⟩
  . next hne =>
    obtain ⟨name, names, hcons⟩ := List.exists_cons_of_ne_nil hne
    rw [hcons, toList_slashed]
    exact ⟨_, rfl⟩

theorem head?_absolutePath (path : String) : ∀ c ∈ (absolutePath path).toList.head?,
      c ∈ accountEnds := by
  intro c hc
  obtain ⟨rest, hrest⟩ := toList_absolutePath path
  rw [hrest, List.head?_cons, Option.mem_some] at hc
  rw [← hc]
  exact .head _

variable {account : String}

theorem cutAt_text (account path : String) :
    cutAt "://".toList (ofPath account path).text.toList =
      some ("adl".toList, account.toList ++ (absolutePath path).toList) := by
  have htext : (ofPath account path).text.toList =
      "adl".toList ++ "://".toList ++ (account.toList ++ (absolutePath path).toList) := by
    simp [text, ofPath, storeScheme]
  rw [htext]
  exact cutAt_append rfl (by decide)

def parts (uri : RemoteUri) : Parts where
  scheme := uri.scheme
  account := uri.account
  tail := uri.path

theorem spell_ofPath_of_unbroken (hsome : account ≠ "")
    (hends : ∀ c ∈ account.toList, c ∉ accountEnds) (path : String) :
    (ofPath account path).parts.Spell (ofPath account path).text := by
  constructor
  . rw [text, parts]
  . show "adl" ≠ ""
    decide
  . intro c hc
    obtain rfl | rfl | rfl : c = 'a' ∨ c = 'd' ∨
      c = 'l' := by simpa [parts, ofPath, storeScheme] using hc
    all_goals decide
  . exact hsome
  . exact hends
  . exact head?_absolutePath path

theorem breaksAccount_eq_false_iff (c : Char) :
    Config.breaksAccount c = false ↔ isWhiteSpace c = false ∧ c ∉ accountEnds := by
  unfold Config.breaksAccount accountEnds
  simp [and_assoc]

theorem spell_ofPath (haccount : Config.IsAccount account) (path : String) :
    (ofPath account path).parts.Spell (ofPath account path).text := by
  apply spell_ofPath_of_unbroken haccount.nonempty
  intro c hc
  exact ((breaksAccount_eq_false_iff c).mp (haccount.unbroken c hc)).2

theorem lower_storeScheme : String.ofList (storeScheme.toList.map Char.toLower) = storeScheme := by
  decide

theorem parse_text (haccount : Config.IsAccount account) (path : String) :
    parse (ofPath account path).text = .ok (ofPath account (kept (absolutePath path))) := by
  rw [(spell_ofPath haccount path).parse]
  unfold RemoteUri.parts Parts.address ofPath
  rw [lower_storeScheme]

theorem path_ofPath (account path : String) : (ofPath account path).path = absolutePath path := rfl

theorem parse_text_iff (haccount : Config.IsAccount account) (path : String) :
    parse (ofPath account path).text = .ok (ofPath account path) ↔
      ∀ c ∈ (absolutePath path).toList, endsPath c = false := by
  rw [parse_text haccount, Except.ok.injEq]
  constructor
  . intro heq c hc
    have hkept := congrArg RemoteUri.path heq
    rw [path_ofPath, path_ofPath] at hkept
    rw [← hkept] at hc
    cases mem_of_mem_absolutePath hc with
    | inl hslash => rw [hslash]; rfl
    | inr hmem => exact endsPath_of_mem_kept hmem
  . intro h
    rw [(kept_eq_self_iff (absolutePath path)).mpr h]
    unfold ofPath
    rw [absolutePath_absolutePath]

end RemoteUri

end LakeStore
