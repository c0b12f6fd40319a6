import LanguageClient.Path.FileUri
import LanguageClient.Proofs.Path.Ancestors
import LanguageClient.Proofs.Uri
/-
  LanguageClient.Proofs.Path.FileUri — paths and their URIs name the same files.

  A path and its URI are two ways to write one name, the normal form of the absolute path.
  Percent coding keeps every byte, whatever it is, and since an absolute path begins with a
  slash, what follows `file://` in its URI is never taken for a host.

  - `uri_names_normal_form`: the URI of a path leads back to the normal form of the path.
-/

namespace LanguageClient.Path

/-- The absolute form of a path is empty, with the path, or absolute. -/
theorem absolute_cases {dir : Bytes} (hdir : isAbsolute dir = true) (p : Bytes) :
    absolute dir p = [] ∨ isAbsolute (absolute dir p) = true := by
  by_cases hp : p = []
  · exact Or.inl (by rw [hp]; rfl)
  · exact Or.inr (isAbsolute_absolute hdir hp)

theorem absolute_of_isAbsolute (dir : Bytes) {p : Bytes} (h : p = [] ∨ isAbsolute p = true) : absolute dir p = p :=
  if_pos h

/-- The normal form of an absolute form needs nothing done to it. -/
theorem normal_absolute_normal {dir : Bytes} (hdir : isAbsolute dir = true) (p : Bytes) :
    normal (absolute dir (normal (absolute dir p))) = normal (absolute dir p) := by
  have hdone : normal (absolute dir p) = [] ∨ isAbsolute (normal (absolute dir p)) = true := by
    rcases absolute_cases hdir p with hnone | habs
    · exact Or.inl (by rw [hnone]; rfl)
    · exact Or.inr (by rw [isAbsolute_normal, habs])
  rw [absolute_of_isAbsolute dir hdone, normal_normal]

/-- No coded absolute path begins with the name of a host. -/
theorem ofUri_fileScheme {p : Bytes} (h : p = [] ∨ isAbsolute p = true) :
    ofUri (fileScheme ++ Uri.encode p) = p := by
  have hscheme : fileScheme.isPrefixOf (fileScheme ++ Uri.encode p) = true :=
    List.isPrefixOf_iff_prefix.2 (List.prefix_append _ _)
  have hhost : (localHost ++ [Byte.slash]).isPrefixOf (Uri.encode p) = false := by
    rcases h with rfl | h
    · decide
    · obtain ⟨c, r, rfl⟩ : ∃ c r, p = c :: r := List.exists_cons_of_ne_nil (by rintro rfl; cases h)
      obtain rfl : c = Byte.slash := by simpa [isAbsolute] using h
      rw [Uri.encode_cons]
      rfl
  rw [ofUri, if_pos hscheme, List.drop_left]
  simp only [hhost, Bool.false_eq_true, if_false, Uri.decode_encode]

/-- The URI of a path leads to the normal form of the path, as it is seen from the working directory. So two
paths have one URI when they have one normal form, and a path that was read from a URI has that URI. -/
theorem uri_names_normal_form {dir : Bytes} (hdir : isAbsolute dir = true) :
    (∀ p, ofUri (toUri dir p) = normal (absolute dir p) ∧ IsNormalOf (absolute dir p) (ofUri (toUri dir p))) ∧
    (∀ p q, toUri dir p = toUri dir q ↔ normal (absolute dir p) = normal (absolute dir q)) ∧
    ∀ p, toUri dir (ofUri (toUri dir p)) = toUri dir p := by
  have hread : ∀ p, ofUri (toUri dir p) = normal (absolute dir p) := by
    intro p
    refine ofUri_fileScheme ?_
    rcases absolute_cases hdir p with hnone | habs
    · exact Or.inl (by rw [hnone]; rfl)
    · exact Or.inr (by rw [isAbsolute_normal, habs])
  refine ⟨fun p => ⟨hread p, ?_⟩, fun p q => ⟨fun h => ?_, fun h => ?_⟩, fun p => ?_⟩
  · rw [hread p]
    exact normal_isNormalOf _
  · rw [← hread p, h, hread q]
  · rw [toUri, h, toUri]
  · rw [hread p, toUri, normal_absolute_normal hdir, toUri]

/-- Seen from a home directory, a relative path with a blank, a percent sign, a `..` and slashes to spare. -/
theorem uri_names_normal_form_from_home : isAbsolute (text "/home/u") = true ∧
    toUri (text "/home/u") (text "../v/./a b%41//c/..") = text "file:///home/v/a%20b%2541/" ∧
    ofUri (text "file:///home/v/a%20b%2541/") = text "/home/v/a b%41/" := by
  have hdir : isAbsolute (text "/home/u") = true := by decide
  have huri : toUri (text "/home/u") (text "../v/./a b%41//c/..") = text "file:///home/v/a%20b%2541/" := by
    decide +kernel
  have hread := ((uri_names_normal_form hdir).1 (text "../v/./a b%41//c/..")).1
  rw [huri] at hread
  exact ⟨hdir, huri, hread.trans (by decide +kernel)⟩

end LanguageClient.Path
