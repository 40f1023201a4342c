import ScriptMachine.Proofs.Builtins.Answers
import ScriptMachine.Proofs.Text.Splitting

set_option autoImplicit false

/-!
# Splitting, joining and removing in scripts

Dividing a text by a text and the method `split` give the same pieces, and the method `join` puts pieces
together. Main statement: `pieces_join` relates the three, and the subtraction of texts, to each other.
-/
namespace ScriptMachine

namespace StandardModule

variable {s t : Text}

theorem split_text (s t : Text) :
    Answers "split" (.str s) [.str t] (.str s) (.ok (.list ((Text.split t s).map .str))) :=
  answers_reading rfl rfl fun _ => rfl

theorem join_texts (pieces : List Text) (t : Text) :
    Answers "join" (.list (pieces.map .str)) [.str t] (.list (pieces.map .str))
      (.ok (.str (Text.join t pieces))) := by
  refine answers_reading rfl rfl fun depth => ?_
  have hdisplay : (pieces.map Value.str).map Value.display = pieces := by
    rw [List.map_map]
    exact List.map_id pieces
  change Except.ok (Value.str (Text.join t ((pieces.map .str).map Value.display))) = _
  rw [hdisplay]

/-- The pieces of a text by a separator, as the operator and the method give them, are joined with it to
the text; none of them contains it; and joined with nothing between them they are what the subtraction
leaves. An empty separator gives the single bytes, and its subtraction leaves all of them. -/
theorem pieces_join (s t : Text) :
    ∃ (pieces : List Text) (rest : Text),
      (∀ id, BinaryOp.div.apply id (.str s) (.str t) = .ok (.list (pieces.map .str))) ∧
      Answers "split" (.str s) [.str t] (.str s) (.ok (.list (pieces.map .str))) ∧
      Answers "join" (.list (pieces.map .str)) [.str t] (.list (pieces.map .str)) (.ok (.str s)) ∧
      (t ≠ [] → ∀ p ∈ pieces, ¬t <:+: p) ∧
      (∀ id, BinaryOp.sub.apply id (.str s) (.str t) = .ok (.str rest)) ∧
      Answers "join" (.list (pieces.map .str)) [.str []] (.list (pieces.map .str)) (.ok (.str rest)) ∧
      (t = [] → pieces = s.map ([·]) ∧ rest = s) := by
  have hwhole := join_texts (Text.split t s) t
  have hrest := join_texts (Text.split t s) []
  rw [Text.join_split] at hwhole
  rw [← Text.without_eq_join] at hrest
  refine ⟨Text.split t s, Text.without t s, fun _ => rfl, split_text s t, hwhole,
    fun ht => (Text.parted_split ht s).not_contained ht, fun _ => rfl, hrest, ?_⟩
  rintro rfl
  exact ⟨if_pos rfl, Text.without_nil s⟩

/-- A text that is taken out can be left: its parts have moved together. -/
theorem pieces_join_adjoining :
    ∃ pieces : List Text, pieces = [Text.ofString "a", Text.ofString "b"] ∧
      Answers "join" (.list (pieces.map .str)) [.str "ab"] (.list (pieces.map .str)) (.ok (.str "aabb")) ∧
      (∀ p ∈ pieces, ¬Text.ofString "ab" <:+: p) ∧
      BinaryOp.sub.apply 0 (.str "aabb") (.str "ab") = .ok (.str "ab") := by
  obtain ⟨pieces, rest, hdiv, -, hjoin, hfree, hsub, hrest, -⟩ := pieces_join "aabb" "ab"
  have hcut : BinaryOp.div.apply 0 (.str "aabb") (.str "ab") =
      .ok (.list ([Text.ofString "a", Text.ofString "b"].map .str)) := by rfl
  have hpieces : pieces = [Text.ofString "a", Text.ofString "b"] := by
    have hvalues := Value.list.inj (Except.ok.inj ((hdiv 0).symm.trans hcut))
    exact List.map_injective_iff.2 (fun _ _ h => Value.str.inj h) hvalues
  have hleft : rest = Text.ofString "ab" := by
    have hresult := hrest.result_eq (join_texts pieces [])
    rw [hpieces] at hresult
    exact Value.str.inj (Except.ok.inj hresult)
  exact ⟨pieces, hpieces, hjoin, hfree (by decide), hleft ▸ hsub 0⟩

end StandardModule

end ScriptMachine
