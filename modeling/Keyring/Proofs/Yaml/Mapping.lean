import Keyring.Proofs.Yaml.Events

/-! A mapping at the root of a text. Its fields stand in the first column, each on a line of its own. -/
namespace Keyring.Yaml

/-- The fields in the first column, up to the end of the last line. -/
def Entry.rows (e : Entry) : List Char := e.first.line ++ Field.below 0 e.others

namespace Scan

variable {r : List Char}

lemma emits_rows (e : Entry) (hr : Entry.Ends r) :
    ∃ m : Mark, Emits (3+3*e.others.length) (between .start (e.rows ++ r) [] true) e.tokens.tail
      (between m r [0] false) := by
  have hwithin : Within [] Mark.start.column := nofun
  have hfield := emits_field e.first hwithin (atLineEnd_below 0 e.others hr.1) (nextWithin_below 0 e.others hr _)
  obtain ⟨m,hothers⟩ := emits_below 0 e.others (Mark.start.right e.first.line.length) [] hr
  refine ⟨m,?_⟩
  rw [Entry.rows,List.append_assoc]
  exact hfield.trans hothers

/-- The last line may be ended, or the text ends with it. -/
lemma emits_text (e : Entry) (hr : r = [] ∨ r = ['\n']) :
    ∃ (m : Mark) (a : Bool), Emits (3+3*e.others.length) (between .start (e.rows ++ r) [] true) e.tokens.tail
      (between m [] [0] a) := by
  rcases hr with rfl | rfl
  · obtain ⟨m,h⟩ := emits_rows (r := []) e ⟨.inl rfl,fun _ => .inl rfl⟩
    exact ⟨m,false,h⟩
  · obtain ⟨m,h⟩ := emits_rows e (ends_of_precedes (.inl rfl))
    have hbreak := toNext_between_congr (nextFrom_break false false m []) [0]
    refine ⟨m.nextLine,true,?_⟩
    simpa using h.trans (.space hbreak)

end Scan

/-- The tokens of the fields in the first column. -/
theorem tokens_rows (e : Entry) {r : List Char} (hr : r = [] ∨ r = ['\n']) :
    tokens ⟨e.rows ++ r,[]⟩ = (e.tokens.tail ++ [.blockEnd,.streamEnd],true) := by
  obtain ⟨m,a,h⟩ := Scan.emits_text e hr
  have hcount : 3+3*e.others.length ≤ (e.rows ++ r).length := by
    have hfirst := e.first.three_le_line
    have hothers := Field.three_le_below 0 e.others
    simp only [Entry.rows,List.length_append]
    omega
  obtain ⟨n,hn⟩ := Nat.exists_eq_add_of_le hcount
  have hrun := Scan.run_of_emits h (n+1)
  rw [Scan.run_end (Nat.succ_pos n)] at hrun
  have hstart : Scan.start ⟨e.rows ++ r,[]⟩ = Scan.between .start (e.rows ++ r) [] true := rfl
  rw [tokens,hn,Nat.add_assoc,hstart,hrun]
  rfl

/-- The events of a mapping, which takes in its tokens as a whole. -/
lemma Expected.events_mapping (tags : Tags) (e : Entry) (ts : List Token) :
    events tags (e.tokens.tail ++ .blockEnd :: ts) = (e.events.map .bare,some ts) := by
  have hlength : e.tokens.tail.length = e.tokens.length-1 := List.length_tail
  obtain ⟨k,hk⟩ : ∃ k, 8*(e.tokens.tail ++ Token.blockEnd :: ts).length+8 = e.tokens.length+k :=
    Nat.exists_eq_add_of_le (by rw [List.length_append,hlength]; omega)
  rw [events,hk,run_of_yields (yields_mapping tags e [] ts)]
  simp

/-- A text of fields in the first column is one document, the mapping of the fields. -/
theorem Document.ofSource_rows (e : Entry) {r : List Char} (hr : r = [] ∨ r = ['\n']) :
    Document.ofSource ⟨e.rows ++ r,[]⟩ = ⟨e.events,[],true,true⟩ := by
  have hresolve := resolve_bare (fun a (ha : a ∈ e.events) => Entry.isAlias_of_mem_events ha) [] [] 0
  have hfirst : firstEvents (e.tokens.tail ++ [.blockEnd,.streamEnd]) = (e.events.map .bare,some [.streamEnd]) :=
    Expected.events_mapping defaultTags e [.streamEnd]
  rw [Document.ofSource,tokens_rows e hr]
  simp only [Document.ofTokens,hfirst,hresolve,Entry.map_named_events]
  rfl

end Keyring.Yaml
