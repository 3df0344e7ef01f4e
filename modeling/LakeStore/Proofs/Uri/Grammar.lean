import LakeStore.FileSystem
import LakeStore.Proofs.Uri

/-!
The grammar of addresses. A text is read exactly when it has a scheme, an account and what can stand
behind an account, and it has them in one way alone. What is read is written in the same grammar,
and is read again as it is.
-/

namespace LakeStore

namespace RemoteUri

namespace Parts

variable {parts other : Parts} {text : String}

theorem Spell.takeWhile_eq (h : parts.Spell text) :
    (parts.account.toList ++ parts.tail.toList).takeWhile (· ∉ accountEnds) =
      parts.account.toList := by
  have htail : parts.tail.toList.takeWhile (· ∉ accountEnds) = [] := by
    cases htail : parts.tail.toList with
    | nil => rfl
    | cons c rest =>
      have hc := h.tail c (by rw [htail]; rfl)
      rw [List.takeWhile_cons_of_neg (by simpa using hc)]
  rw [List.takeWhile_append_of_pos (by simpa using h.account), htail, List.append_nil]

theorem Spell.unique (h : parts.Spell text) (hother : other.Spell text) : parts = other := by
  have hcut := h.cutAt
  rw [hother.cutAt, Option.some_inj, Prod.mk.injEq] at hcut
  have haccount := h.takeWhile_eq
  rw [← hcut.2, hother.takeWhile_eq] at haccount
  have htail := hcut.2
  rw [haccount, List.append_cancel_left_eq] at htail
  cases parts
  cases other
  rw [Parts.mk.injEq]
  exact ⟨String.toList_inj.mp hcut.1.symm, String.toList_inj.mp haccount.symm,
    String.toList_inj.mp htail.symm⟩

theorem spell_of_cut {scheme rest : List Char}
    (hcut : cutAt "://".toList text.toList = some (scheme, rest)) (hsome : scheme ≠ [])
    (hscheme : ∀ c ∈ scheme, isSchemeChar c) (haccount : rest.takeWhile (· ∉ accountEnds) ≠ []) :
    Spell ⟨String.ofList scheme, String.ofList (rest.takeWhile (· ∉ accountEnds)),
      String.ofList (rest.dropWhile (· ∉ accountEnds))⟩ text := by
  have htext := eq_append_of_cutAt hcut
  constructor
  . rw [← String.toList_inj, htext]
    simp [List.takeWhile_append_dropWhile]
  . simpa using hsome
  . intro c hc
    rw [String.toList_ofList] at hc
    exact isSchemeChar_iff.mp (hscheme c hc)
  . simpa using haccount
  . intro c hc
    rw [String.toList_ofList] at hc
    simpa using List.mem_takeWhile_imp hc
  . intro c hc
    rw [String.toList_ofList, Option.mem_def] at hc
    have hnot := List.head?_dropWhile_not (· ∉ accountEnds) rest
    rw [hc] at hnot
    simpa using hnot

theorem exists_spell {uri : RemoteUri} (h : RemoteUri.parse text = .ok uri) : ∃ parts :
    Parts, parts.Spell text := by
  unfold RemoteUri.parse at h
  cases hcut : RemoteUri.cutAt "://".toList text.toList with
  | none =>
    rw [hcut] at h
    cases h
  | some halves =>
    obtain ⟨scheme, rest⟩ := halves
    rw [hcut] at h
    dsimp only at h
    -- The account ends at a slash, or at what is cut off before a slash is looked for.
    have htake : (rest.takeWhile (!endsPath ·)).takeWhile (· ≠ '/') =
        rest.takeWhile (· ∉ accountEnds) := by
      rw [List.takeWhile_takeWhile]
      congr 1
      funext c
      unfold endsPath accountEnds
      simp
    rw [htake] at h
    split at h
    . cases h
    . next hscheme =>
      split at h
      . cases h
      . next haccount =>
        rw [not_or, not_not, List.all_eq_true] at hscheme
        exact ⟨_, spell_of_cut hcut hscheme.1 hscheme.2 haccount⟩

theorem spell_iff_parse {uri : RemoteUri} :
    RemoteUri.parse text = .ok uri ↔ ∃ parts : Parts, parts.Spell text ∧ parts.address = uri := by
  constructor
  . intro hparse
    obtain ⟨parts, hspell⟩ := exists_spell hparse
    rw [hspell.parse, Except.ok.injEq] at hparse
    exact ⟨parts, hspell, hparse⟩
  . rintro ⟨parts, hspell, rfl⟩
    exact hspell.parse

end Parts

theorem toLower_of_not_isUpper {c : Char} (h : ¬ c.isUpper) : c.toLower = c := by
  unfold Char.isUpper at h
  unfold Char.toLower
  grind

theorem toNat_toLower {c : Char} (h : c.isUpper) :
    97 ≤ c.toLower.val.toNat ∧ c.toLower.val.toNat ≤ 122 := by
  have hrange : c.val ≥ 'A'.val ∧ c.val ≤ 'Z'.val := of_decide_eq_true h
  have hval : c.toLower.val = c.val + 32 := by
    unfold Char.toLower
    rw [dif_pos hrange]
    rfl
  simp only [ge_iff_le, UInt32.le_iff_toNat_le] at hrange
  rw [hval, UInt32.toNat_add]
  have : 'A'.val.toNat = 65 := rfl
  have : 'Z'.val.toNat = 90 := rfl
  have : (32 : UInt32).toNat = 32 := rfl
  omega

theorem isLower_toLower {c : Char} (h : c.isUpper) : c.toLower.isLower := by
  change (decide ('a'.val ≤ c.toLower.val) && decide (c.toLower.val ≤ 'z'.val)) = true
  rw [Bool.and_eq_true, decide_eq_true_eq, decide_eq_true_eq, UInt32.le_iff_toNat_le,
    UInt32.le_iff_toNat_le]
  exact toNat_toLower h

theorem not_isUpper_toLower (c : Char) : ¬ c.toLower.isUpper := by
  by_cases h : c.isUpper
  . intro hupper
    have hrange : c.toLower.val ≥ 'A'.val ∧ c.toLower.val ≤ 'Z'.val := of_decide_eq_true hupper
    have hle : c.toLower.val.toNat ≤ 90 := hrange.2
    have := (toNat_toLower h).1
    omega
  . rwa [toLower_of_not_isUpper h]

theorem isAlpha_toLower {c : Char} (h : c.isAlpha) : c.toLower.isAlpha := by
  by_cases hupper : c.isUpper
  . unfold Char.isAlpha
    rw [isLower_toLower hupper, Bool.or_true]
  . rwa [toLower_of_not_isUpper hupper]

theorem not_isUpper_of_isDigit_or_mark {c : Char} (h : c.isDigit ∨ c ∈ ['+', '-', '.']) :
    ¬ c.isUpper := by
  cases h with
  | inl hdigit =>
    unfold Char.isDigit at hdigit
    unfold Char.isUpper
    grind
  | inr hmark =>
    obtain rfl | rfl | rfl := by simpa using hmark
    all_goals decide

theorem spell_parts {parts : Parts} {text : String} (h : parts.Spell text) :
    parts.address.parts.Spell parts.address.text := by
  constructor
  . rw [RemoteUri.text, RemoteUri.parts]
  . simpa [RemoteUri.parts, Parts.address] using h.someScheme
  . intro c hc
    obtain ⟨given, hgiven, rfl⟩ : ∃ given ∈ parts.scheme.toList, given.toLower = c := by
      simpa [RemoteUri.parts, Parts.address] using hc
    -- A letter stays a letter in small form, and nothing else has one.
    cases h.scheme given hgiven with
    | inl halpha => exact .inl (isAlpha_toLower halpha)
    | inr hother =>
      rw [toLower_of_not_isUpper (not_isUpper_of_isDigit_or_mark hother)]
      exact .inr hother
  . exact h.someAccount
  . exact h.account
  . simpa only [RemoteUri.parts, Parts.address] using head?_absolutePath (kept parts.tail)

theorem address_parts (parts : Parts) : parts.address.parts.address = parts.address := by
  have hkept : kept (absolutePath (kept parts.tail)) = absolutePath (kept parts.tail) := by
    rw [kept_eq_self_iff]
    intro c hc
    cases mem_of_mem_absolutePath hc with
    | inl hslash => rw [hslash]; rfl
    | inr hmem => exact endsPath_of_mem_kept hmem
  unfold RemoteUri.parts Parts.address
  dsimp only
  rw [hkept, absolutePath_absolutePath, String.toList_ofList, List.map_map]
  congr 3
  funext c
  exact toLower_of_not_isUpper (not_isUpper_toLower c)

theorem parse_text_of_parse {text : String} {uri : RemoteUri} (h : parse text = .ok uri) :
    parse uri.text = .ok uri := by
  rw [Parts.spell_iff_parse] at h
  obtain ⟨parts, hspell, rfl⟩ := h
  rw [(spell_parts hspell).parse, address_parts]

end RemoteUri

open RemoteUri

/--
A text is read when it has the parts of an address, which it then has in one way alone. It is read
as the address that these parts stand for, and this address is read from what it is written as.
-/
theorem parseUri_grammar (text : String) :
    ((∃ uri, FileSystem.parseUri text = .ok uri) ↔ ∃! parts : Parts, parts.Spell text) ∧
    (∀ uri, FileSystem.parseUri text = .ok uri ↔
      ∃ parts : Parts, parts.Spell text ∧ parts.address = uri) ∧
    ((∃ detail, FileSystem.parseUri text = .error (.invalidArgument detail)) ↔
      ¬ ∃ parts : Parts, parts.Spell text) ∧
    ((FileSystem.parseUri text >>= fun uri => FileSystem.parseUri uri.text) =
      FileSystem.parseUri text) := by
  unfold FileSystem.parseUri
  cases hparse : parse text with
  | ok uri =>
    have hagain := parse_text_of_parse hparse
    rw [Parts.spell_iff_parse] at hparse
    obtain ⟨parts, hspell, rfl⟩ := hparse
    refine ⟨⟨fun _ => ⟨parts, hspell, fun other hother => hother.unique hspell⟩, fun _ => ⟨_, rfl⟩⟩,
      ?_, ?_, ?_⟩
    . intro uri
      constructor
      . intro heq
        cases heq
        exact ⟨parts, hspell, rfl⟩
      . rintro ⟨other, hother, rfl⟩
        rw [hother.unique hspell]
        rfl
    . constructor
      . rintro ⟨detail, heq⟩
        cases heq
      . intro hnone
        exact absurd ⟨parts, hspell⟩ hnone
    . dsimp only [Except.mapError, bind, Except.bind]
      rw [hagain]
  | error error =>
    have hnone : ¬ ∃ parts : Parts, parts.Spell text := by
      rintro ⟨parts, hspell⟩
      rw [hspell.parse] at hparse
      cases hparse
    refine ⟨⟨?_, ?_⟩, ?_, ⟨fun _ => hnone, fun _ => ⟨_, rfl⟩⟩, rfl⟩
    . rintro ⟨uri, heq⟩
      cases heq
    . rintro ⟨parts, hspell, -⟩
      exact absurd ⟨parts, hspell⟩ hnone
    . intro uri
      constructor
      . intro heq
        cases heq
      . rintro ⟨parts, hspell, -⟩
        exact absurd ⟨parts, hspell⟩ hnone

end LakeStore
