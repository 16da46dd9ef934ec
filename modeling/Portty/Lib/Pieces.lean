import Mathlib.Algebra.GroupWithZero.Nat
import Mathlib.Data.List.DropRight
import Mathlib.Data.List.Nodup

/-!
# A text as the pieces between its separators

`pieces` splits a text at a separator, strips the spaces around every part and drops the empty
parts. `List.intercalate` writes parts with a glue between them.

* `pieces_append`, `pieces_intercalate`: the pieces of texts with a separator between them.
* `Piece`: what every piece is; a piece is its own only piece.
* `eraseDups_flatMap`, `nodup_of_intercalate`: the distinct parts, in the order of their first
  occurrence.
-/

namespace Pieces

variable {α β : Type}

/-! ## Distinct parts -/

section Distinct

variable [BEq α] [LawfulBEq α] [BEq β] [LawfulBEq β] {a : α} {as bs : List α}

theorem removeAll_eq_nil (h : ∀ b ∈ bs, b ∈ as) : bs.removeAll as = [] := by
  refine List.filter_eq_nil_iff.mpr fun b hb => ?_
  rw [List.elem_eq_contains, Bool.not_eq_true', Bool.not_eq_false, List.contains_iff_mem]
  exact h b hb

theorem removeAll_congr {cs : List α} (h : ∀ a, a ∈ as ↔ a ∈ cs) :
    bs.removeAll as = bs.removeAll cs := by
  refine List.filter_congr fun b _ => ?_
  rw [List.elem_eq_contains, List.elem_eq_contains, Bool.eq_iff_iff, Bool.not_eq_true',
    Bool.not_eq_true', Bool.eq_false_iff, Bool.eq_false_iff, ne_eq, ne_eq, List.contains_iff_mem,
    List.contains_iff_mem, h b]

theorem eraseDups_concat_of_mem (h : a ∈ as) : (as ++ [a]).eraseDups = as.eraseDups := by
  have hnone : [a].removeAll as = [] := removeAll_eq_nil fun b hb => List.eq_of_mem_singleton hb ▸ h
  rw [List.eraseDups_append, hnone, List.eraseDups_nil, List.append_nil]

theorem eraseDups_concat (h : a ∉ as) : (as ++ [a]).eraseDups = as.eraseDups ++ [a] := by
  have hone : [a].removeAll as = [a] := by simp [List.removeAll, h]
  rw [List.eraseDups_append, hone]
  rfl

theorem eraseDups_sublist (as : List α) : as.eraseDups.Sublist as := by
  induction as using List.reverseRecOn with
  | nil => exact List.Sublist.slnil
  | append_singleton as a ih =>
    by_cases h : a ∈ as
    · rw [eraseDups_concat_of_mem h]
      exact ih.trans (List.sublist_append_left as [a])
    · rw [eraseDups_concat h]
      exact ih.append (List.Sublist.refl _)

theorem nodup_eraseDups (as : List α) : as.eraseDups.Nodup := by
  induction as using List.reverseRecOn with
  | nil => exact List.nodup_nil
  | append_singleton as a ih =>
    by_cases h : a ∈ as
    · rwa [eraseDups_concat_of_mem h]
    · rw [eraseDups_concat h]
      refine List.nodup_append.mpr ⟨ih, List.nodup_singleton a, fun b hb c hc he => h ?_⟩
      rw [← List.eq_of_mem_singleton hc, ← he]
      exact List.mem_eraseDups.mp hb

theorem eraseDups_of_nodup (h : as.Nodup) : as.eraseDups = as := by
  induction as using List.reverseRecOn with
  | nil => rfl
  | append_singleton as a ih =>
    obtain ⟨has, -, hapart⟩ := List.nodup_append.mp h
    rw [eraseDups_concat fun ha => hapart a ha a (List.mem_singleton_self a) rfl, ih has]

theorem nodup_of_eraseDups_length (h : as.eraseDups.length = as.length) : as.Nodup := by
  rw [← (eraseDups_sublist as).eq_of_length h]
  exact nodup_eraseDups as

/-- Parts that come from distinct sources are the parts that come from all of them. -/
theorem eraseDups_flatMap (f : α → List β) (as : List α) :
    (as.flatMap f).eraseDups = (as.eraseDups.flatMap f).eraseDups := by
  induction as using List.reverseRecOn with
  | nil => rfl
  | append_singleton as a ih =>
    rw [List.flatMap_append, List.flatMap_singleton, List.eraseDups_append]
    by_cases h : a ∈ as
    · have hnone : (f a).removeAll (as.flatMap f) = [] :=
        removeAll_eq_nil fun b hb => List.mem_flatMap.mpr ⟨a, h, hb⟩
      rw [eraseDups_concat_of_mem h, hnone, List.eraseDups_nil, List.append_nil, ih]
    · have hsame : (f a).removeAll (as.flatMap f) = (f a).removeAll (as.eraseDups.flatMap f) :=
        removeAll_congr fun b => by simp only [List.mem_flatMap, List.mem_eraseDups]
      rw [eraseDups_concat h, List.flatMap_append, List.flatMap_singleton, List.eraseDups_append,
        ih, hsame]

end Distinct

/-! ## Parts with a glue between them -/

section Glue

variable {glue : List α} {parts few : List (List α)}

theorem length_intercalate (glue : List α) (hne : parts ≠ []) :
    (glue.intercalate parts).length + glue.length =
      (parts.map fun p => p.length + glue.length).sum := by
  induction parts with
  | nil => exact absurd rfl hne
  | cons p more ih =>
    cases more with
    | nil => simp
    | cons q more =>
      have := ih (List.cons_ne_nil q more)
      rw [List.intercalate_cons_cons, List.map_cons, List.sum_cons, List.length_append,
        List.length_append]
      omega

/-- Fewer parts have less in all. -/
theorem sum_lt_of_sublist {f : List α → Nat} (hf : ∀ p, 0 < f p) (h : few.Sublist parts)
    (hlt : few.length < parts.length) : (few.map f).sum < (parts.map f).sum := by
  induction h with
  | slnil => exact absurd hlt (Nat.lt_irrefl 0)
  | @cons few parts p h ih =>
    rw [List.map_cons, List.sum_cons]
    rcases Nat.lt_or_ge few.length parts.length with hshort | hlong
    · have := ih hshort
      omega
    · have := hf p
      rw [h.eq_of_length_le hlong]
      omega
  | @cons_cons few parts p h ih =>
    rw [List.map_cons, List.map_cons, List.sum_cons, List.sum_cons]
    have := ih (Nat.lt_of_succ_lt_succ hlt)
    omega

/-- A text that is not changed by writing only its distinct parts has no part twice. -/
theorem nodup_of_intercalate [BEq α] [LawfulBEq α] (hglue : glue ≠ [])
    (h : glue.intercalate parts = glue.intercalate parts.eraseDups) : parts.Nodup := by
  refine nodup_of_eraseDups_length ?_
  have hsub := eraseDups_sublist parts
  by_contra hne
  have hlt : parts.eraseDups.length < parts.length := lt_of_le_of_ne hsub.length_le hne
  have hsome : parts ≠ [] := List.ne_nil_of_length_pos (by omega)
  have herased : parts.eraseDups ≠ [] := by
    obtain ⟨p, hp⟩ := List.exists_mem_of_ne_nil parts hsome
    exact List.ne_nil_of_mem (List.mem_eraseDups.mpr hp)
  have hpos : ∀ p : List α, 0 < p.length + glue.length := fun p => by
    have := List.length_pos_of_ne_nil hglue
    omega
  have hsum := sum_lt_of_sublist hpos hsub hlt
  rw [← length_intercalate glue hsome, ← length_intercalate glue herased, h] at hsum
  exact Nat.lt_irrefl _ hsum

end Glue

/-! ## Spaces at the ends -/

section Trim

variable {isSpace : α → Bool} {text : List α} {c : α}

/-- The spaces at both ends are dropped. -/
def trim (isSpace : α → Bool) (text : List α) : List α :=
  (text.dropWhile isSpace).rdropWhile isSpace

theorem trim_cons_space (hc : isSpace c = true) (text : List α) :
    trim isSpace (c :: text) = trim isSpace text := by
  rw [trim, trim, List.dropWhile_cons_of_pos hc]

/-- What is trimmed is not trimmed again. -/
theorem trim_trim (text : List α) : trim isSpace (trim isSpace text) = trim isSpace text := by
  have hhead : (trim isSpace text).dropWhile isSpace = trim isSpace text := by
    obtain ⟨spaces, hsplit⟩ : ∃ spaces, trim isSpace text ++ spaces = text.dropWhile isSpace :=
      ⟨_, List.rdropWhile_append_rtakeWhile⟩
    have hstop := List.head?_dropWhile_not isSpace text
    rw [← hsplit, List.head?_append] at hstop
    cases ht : trim isSpace text with
    | nil => rfl
    | cons c more =>
      rw [ht] at hstop
      exact List.dropWhile_cons_of_neg (Bool.eq_false_iff.mp hstop)
  rw [trim, hhead]
  exact List.rdropWhile_idempotent isSpace _

theorem mem_trim (hc : c ∈ trim isSpace text) : c ∈ text := by
  have hstart : trim isSpace text <+: text.dropWhile isSpace := List.rdropWhile_prefix isSpace _
  exact (List.dropWhile_sublist isSpace).mem (hstart.mem hc)

theorem mem_trim_of_mem (hc : c ∈ text) (hspace : isSpace c = false) : c ∈ trim isSpace text := by
  have hdrop : c ∈ text.dropWhile isSpace := by
    rw [← List.takeWhile_append_dropWhile (p := isSpace) (l := text), List.mem_append] at hc
    refine hc.resolve_left fun htake => ?_
    rw [List.mem_takeWhile_imp htake] at hspace
    exact absurd hspace (by decide)
  rw [← List.rdropWhile_append_rtakeWhile (p := isSpace) (l := text.dropWhile isSpace),
    List.mem_append] at hdrop
  refine hdrop.resolve_right fun htake => ?_
  rw [List.mem_rtakeWhile_imp htake] at hspace
  exact absurd hspace (by decide)

end Trim

/-! ## Pieces -/

variable [DecidableEq α] (isSpace : α → Bool) (sep : α)

/-- A cut at every separator, each with the spaces that come after it: within them when `skip` is
set. -/
def split : Bool → List α → List (List α)
  | _, [] => [[]]
  | skip, c :: text =>
    if skip && isSpace c then split true text
    else if c = sep then [] :: split true text
    else (split false text).modifyHead (c :: ·)

/-- The parts between the separators, trimmed and without the empty ones. -/
def pieces (text : List α) : List (List α) :=
  ((split isSpace sep false text).map (trim isSpace)).filter (· ≠ [])

/-- What a part can be. -/
structure Piece (p : List α) : Prop where
  ne_nil : p ≠ []
  whole : sep ∉ p
  trimmed : trim isSpace p = p

variable {isSpace sep} {text u v p : List α} {c : α} {skip : Bool}

theorem split_ne_nil (skip : Bool) (text : List α) : split isSpace sep skip text ≠ [] := by
  induction text generalizing skip with
  | nil => exact List.cons_ne_nil _ _
  | cons c text ih =>
    rw [split]
    split_ifs
    · exact ih true
    · exact List.cons_ne_nil _ _
    · obtain ⟨part, more, hsplit⟩ := List.exists_cons_of_ne_nil (ih false)
      rw [hsplit]
      exact List.cons_ne_nil _ _

theorem exists_split (isSpace : α → Bool) (sep : α) (text : List α) :
    ∃ part more, split isSpace sep false text = part :: more :=
  List.exists_cons_of_ne_nil (split_ne_nil false text)

/-- Whether spaces are skipped makes no difference to the trimmed parts. -/
theorem map_trim_split (hsep : isSpace sep = false) (skip : Bool) (text : List α) :
    (split isSpace sep skip text).map (trim isSpace) =
      (split isSpace sep false text).map (trim isSpace) := by
  induction text generalizing skip with
  | nil => rfl
  | cons c text ih =>
    rw [split, split, Bool.false_and]
    by_cases hc : isSpace c = true
    · have hne : c ≠ sep := fun he => by simp [he, hsep] at hc
      obtain ⟨part, more, hsplit⟩ := exists_split isSpace sep text
      have htrim : ((split isSpace sep false text).modifyHead (c :: ·)).map (trim isSpace) =
          (split isSpace sep false text).map (trim isSpace) := by
        rw [hsplit, List.modifyHead_cons, List.map_cons, List.map_cons, trim_cons_space hc]
      rw [if_neg (by decide : ¬ false = true), if_neg hne, htrim, hc, Bool.and_true]
      cases skip with
      | true => rw [if_pos rfl, ih true]
      | false => rw [if_neg (by decide : ¬ false = true), htrim]
    · rw [Bool.eq_false_iff.mpr hc, Bool.and_false, if_neg (by decide : ¬ false = true)]

theorem split_append (hsep : isSpace sep = false) (skip : Bool) (u v : List α) :
    split isSpace sep skip (u ++ sep :: v) =
      split isSpace sep skip u ++ split isSpace sep true v := by
  induction u generalizing skip with
  | nil => simp [split, hsep]
  | cons c u ih =>
    rw [List.cons_append, split, split, ih true, ih false]
    split_ifs
    · rfl
    · rfl
    · obtain ⟨part, more, hsplit⟩ := exists_split isSpace sep u
      rw [hsplit]
      rfl

theorem pieces_append (hsep : isSpace sep = false) (u v : List α) :
    pieces isSpace sep (u ++ sep :: v) = pieces isSpace sep u ++ pieces isSpace sep v := by
  rw [pieces, split_append hsep, List.map_append, List.filter_append, map_trim_split hsep true]
  rfl

theorem pieces_space (hsep : isSpace sep = false) (hc : isSpace c = true) (text : List α) :
    pieces isSpace sep (c :: text) = pieces isSpace sep text := by
  have hskip : split isSpace sep true (c :: text) = split isSpace sep true text := by
    rw [split, hc, Bool.and_true, if_pos rfl]
  rw [pieces, pieces, ← map_trim_split hsep true (c :: text), hskip, map_trim_split hsep]

/-- Parts that stand between a separator with one space after it. -/
theorem pieces_intercalate (hsep : isSpace sep = false) {space : α} (hspace : isSpace space = true)
    (u : List α)
    (parts : List (List α)) : pieces isSpace sep ([sep, space].intercalate (u :: parts)) =
      pieces isSpace sep u ++ parts.flatMap (pieces isSpace sep) := by
  induction parts generalizing u with
  | nil => rw [List.intercalate_singleton, List.flatMap_nil, List.append_nil]
  | cons p parts ih =>
    rw [List.intercalate_cons_cons, List.append_assoc, List.cons_append, List.cons_append,
      List.nil_append, pieces_append hsep, pieces_space hsep hspace, ih, List.flatMap_cons]

theorem split_whole (h : sep ∉ text) : split isSpace sep false text = [text] := by
  induction text with
  | nil => rfl
  | cons c text ih =>
    obtain ⟨hc, htext⟩ := not_or.mp (List.mem_cons.not.mp h)
    rw [split, Bool.false_and, if_neg (by decide : ¬ false = true), if_neg (Ne.symm hc), ih htext]
    rfl

theorem pieces_whole (h : sep ∉ text) (hne : trim isSpace text ≠ []) :
    pieces isSpace sep text = [trim isSpace text] := by
  rw [pieces, split_whole h, List.map_singleton]
  exact List.filter_cons_of_pos (decide_eq_true hne)

theorem Piece.pieces (h : Piece isSpace sep p) : pieces isSpace sep p = [p] := by
  rw [pieces_whole h.whole (by rw [h.trimmed]; exact h.ne_nil), h.trimmed]

theorem flatMap_pieces {parts : List (List α)} (h : ∀ p ∈ parts, Piece isSpace sep p) :
    parts.flatMap (Pieces.pieces isSpace sep) = parts := by
  induction parts with
  | nil => rfl
  | cons p parts ih =>
    obtain ⟨hp, hparts⟩ := List.forall_mem_cons.mp h
    rw [List.flatMap_cons, hp.pieces, ih hparts, List.singleton_append]

/-- No part has a separator. -/
theorem whole_of_mem_split (h : p ∈ split isSpace sep skip text) : sep ∉ p := by
  induction text generalizing skip p with
  | nil =>
    rw [List.eq_of_mem_singleton h]
    exact List.not_mem_nil
  | cons c text ih =>
    rw [split] at h
    split_ifs at h with hskip hsep
    · exact ih h
    · rcases List.mem_cons.mp h with rfl | h
      · exact List.not_mem_nil
      · exact ih h
    · obtain ⟨part, more, hsplit⟩ := exists_split isSpace sep text
      rw [hsplit, List.modifyHead_cons] at h
      rcases List.mem_cons.mp h with rfl | h
      · exact List.mem_cons.not.mpr (not_or.mpr ⟨Ne.symm hsep, ih (hsplit ▸ List.mem_cons_self)⟩)
      · exact ih (hsplit ▸ List.mem_cons_of_mem part h)

theorem piece_of_mem (h : p ∈ pieces isSpace sep text) : Piece isSpace sep p := by
  obtain ⟨hp, hne⟩ := List.mem_filter.mp h
  obtain ⟨part, hpart, rfl⟩ := List.mem_map.mp hp
  exact ⟨of_decide_eq_true hne, fun hc => whole_of_mem_split hpart (mem_trim hc), trim_trim part⟩

/-- Nothing but separators and spaces is lost. -/
theorem mem_split_of_mem (sep : α) (skip : Bool) (hc : c ∈ text) (hspace : isSpace c = false)
    (hsep : c ≠ sep) :
    ∃ part ∈ split isSpace sep skip text, c ∈ part := by
  induction text generalizing skip with
  | nil => exact absurd hc List.not_mem_nil
  | cons d text ih =>
    rw [split]
    rcases List.mem_cons.mp hc with rfl | hc
    · obtain ⟨part, more, hsplit⟩ := exists_split isSpace sep text
      rw [hspace, Bool.and_false, if_neg (by decide : ¬ false = true), if_neg hsep, hsplit]
      exact ⟨c :: part, List.mem_cons_self, List.mem_cons_self⟩
    · split_ifs
      · exact ih true hc
      · obtain ⟨part, hpart, hmem⟩ := ih true hc
        exact ⟨part, List.mem_cons_of_mem _ hpart, hmem⟩
      · obtain ⟨part, hpart, hmem⟩ := ih false hc
        obtain ⟨first, more, hsplit⟩ := exists_split isSpace sep text
        rw [hsplit] at hpart ⊢
        rcases List.mem_cons.mp hpart with rfl | hpart
        · exact ⟨d :: part, List.mem_cons_self, List.mem_cons_of_mem d hmem⟩
        · exact ⟨part, List.mem_cons_of_mem _ hpart, hmem⟩

/-- What is not a space and not the separator is in a piece. -/
theorem pieces_ne_nil (hc : c ∈ text) (hspace : isSpace c = false) (hsep : c ≠ sep) :
    pieces isSpace sep text ≠ [] := by
  obtain ⟨part, hpart, hmem⟩ := mem_split_of_mem sep false hc hspace hsep
  have hne : trim isSpace part ≠ [] := List.ne_nil_of_mem (mem_trim_of_mem hmem hspace)
  exact List.ne_nil_of_mem (List.mem_filter.mpr ⟨List.mem_map.mpr ⟨part, hpart, rfl⟩, decide_eq_true hne⟩)

end Pieces
