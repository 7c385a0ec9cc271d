import GoldenTrace.Json.Reader
import GoldenTrace.Proofs.Json.Lexing

/-!
# Written values read back

The tokens of a value, taken where a value is expected, deliver that value; so
the text of a value is a document with it as its root and nothing behind.
A value whose containers are not nested too deep is not clipped either, and
what a reader makes of the text is what it makes of the value.
-/

namespace GoldenTrace.Json

/-- Members with keys that could be read. -/
def known (ms : List (String × Json)) : List (Option String × Json) :=
  ms.map fun m => (some m.1, m.2)

theorem object_known (ms : List (String × Json)) (whole : Bool) :
    object (known ms) whole = .obj ms := by
  have hkeyed : keyed (known ms) = ms := by
    induction ms with
    | nil => rfl
    | cons m ms ih =>
        show (m.1, m.2) :: keyed (known ms) = m :: ms
        rw [ih]
  rw [object, hkeyed, if_pos]
  simp [known]

namespace Expecting

/-- One step of a run, unless nothing is expected any more. -/
theorem run_cons {e e' : Expecting} {t : Token} (h : e.take? t = some e') (ts : List Token) :
    run e (t :: ts) = run e' ts := by
  cases e with
  | nothing root => cases h
  | _ =>
      rw [run, h]
      intro root hroot
      cases hroot

mutual

/-- The tokens of a value are taken one after the other and deliver it. -/
theorem run_tokens (n : Nat) (closable : Bool) (up : List Frame) (ts : List Token) :
    ∀ v : Json, Within n v →
      run (value closable up) (tokens v ++ ts) = run (deliver v up) ts
  | .null, _ => run_cons rfl ts
  | .bool _, _ => run_cons rfl ts
  | .int _, _ => run_cons rfl ts
  | .str _, _ => run_cons rfl ts
  | .arr [], _ => by
      rw [tokens, List.cons_append, run_cons rfl, List.singleton_append]
      exact run_cons rfl ts
  | .arr (v :: vs), hv => by
      cases n with
      | zero => exact hv.elim
      | succ n =>
          -- where the first item stands, the array may still be closed
          simp only [tokens, List.cons_append, List.append_assoc, List.nil_append]
          rw [run_cons rfl, run_tokens n true _ _ v hv.1]
          exact run_itemTokens n [v] up ts vs hv.2
  | .obj [], _ => by
      rw [tokens, List.cons_append, run_cons rfl, List.singleton_append]
      exact run_cons rfl ts
  | .obj ((k, v) :: ms), hv => by
      cases n with
      | zero => exact hv.elim
      | succ n =>
          simp only [tokens, List.cons_append, List.append_assoc, List.nil_append]
          rw [run_cons rfl, run_cons rfl, run_cons rfl, run_tokens n false _ _ v hv.1]
          exact run_memberTokens n [(k, v)] up ts ms hv.2
  | .real _, hv => by cases n <;> exact hv.elim
  | .valueless, hv => by cases n <;> exact hv.elim
  | .cut _ _, hv => by cases n <;> exact hv.elim
  | .broken, hv => by cases n <;> exact hv.elim

/-- The tokens of the remaining items finish an array. -/
theorem run_itemTokens (n : Nat) (done : List Json) (up : List Frame) (ts : List Token) :
    ∀ vs : List Json, WithinItems n vs →
      run (nextItem done.reverse up) (itemTokens vs ++ .closeArray :: ts) =
        run (deliver (.arr (done ++ vs)) up) ts
  | [], _ => by
      rw [itemTokens, List.nil_append, List.append_nil]
      exact run_cons (by rw [take?, List.reverse_reverse]) ts
  | v :: vs, hv => by
      simp only [itemTokens, List.cons_append, List.append_assoc]
      rw [run_cons rfl, run_tokens n false _ _ v hv.1]
      have hrest := run_itemTokens n (done ++ [v]) up ts vs hv.2
      rw [List.reverse_append, List.append_assoc] at hrest
      exact hrest

/-- The tokens of the remaining members finish an object. -/
theorem run_memberTokens (n : Nat) (done : List (String × Json)) (up : List Frame)
    (ts : List Token) :
    ∀ ms : List (String × Json), WithinMembers n ms →
      run (nextMember (known done).reverse up) (memberTokens ms ++ .closeObject :: ts) =
        run (deliver (.obj (done ++ ms)) up) ts
  | [], _ => by
      rw [memberTokens, List.nil_append, List.append_nil]
      exact run_cons (by rw [take?, List.reverse_reverse, object_known]) ts
  | (k, v) :: ms, hv => by
      simp only [memberTokens, List.cons_append, List.append_assoc]
      rw [run_cons rfl, run_cons rfl, run_cons rfl, run_tokens n false _ _ v hv.1]
      have hrest := run_memberTokens n (done ++ [(k, v)]) up ts ms hv.2
      rw [known, List.map_append, List.reverse_append, List.append_assoc] at hrest
      exact hrest

end

end Expecting

/-- The text of a value is a document that holds exactly this value. -/
theorem read_write (l : Layout) {n : Nat} {v : Json} (hv : Within n v) :
    Document.read (write l 0 v ++ ['\n']) = ⟨v, false⟩ := by
  have hrun := Expecting.run_tokens n false [] [] v hv
  rw [List.append_nil] at hrun
  rw [Document.read, lex_write l hv, hrun]
  rfl

mutual

/-- A value within a depth is not clipped there. -/
theorem clip_eq_self (n : Nat) : ∀ v : Json, Within n v → clip n v = v
  | .null, _ => by cases n <;> rfl
  | .bool _, _ => by cases n <;> rfl
  | .int _, _ => by cases n <;> rfl
  | .str _, _ => by cases n <;> rfl
  | .arr vs, hv => by
      cases n with
      | zero => exact hv.elim
      | succ n => rw [clip, clipItems_eq_self n vs hv]
  | .obj ms, hv => by
      cases n with
      | zero => exact hv.elim
      | succ n => rw [clip, clipMembers_eq_self n ms hv]
  | .real _, hv => by cases n <;> exact hv.elim
  | .valueless, hv => by cases n <;> exact hv.elim
  | .cut _ _, hv => by cases n <;> exact hv.elim
  | .broken, hv => by cases n <;> exact hv.elim

theorem clipItems_eq_self (n : Nat) :
    ∀ vs : List Json, WithinItems n vs → clipItems n vs = vs
  | [], _ => rfl
  | v :: vs, hv => by
      rw [clipItems, clip_eq_self n v hv.1, clipItems_eq_self n vs hv.2]

theorem clipMembers_eq_self (n : Nat) :
    ∀ ms : List (String × Json), WithinMembers n ms → clipMembers n ms = ms
  | [], _ => rfl
  | (k, v) :: ms, hv => by
      rw [clipMembers, clip_eq_self n v hv.1, clipMembers_eq_self n ms hv.2]

end

/-- Reading the text of a value is reading the value. -/
theorem readText_render {α : Type} (read : Json → Read α) (l : Layout) {v : Json}
    (hv : Within depthLimit v) : readText read (v.render l ++ "\n") = read v := by
  have htext : (v.render l ++ "\n").toList = write l 0 v ++ ['\n'] := by
    rw [String.toList_append, render, String.toList_ofList]
    rfl
  rw [readText, htext, read_write l hv, clip_eq_self depthLimit v hv]
  cases read v <;> rfl

end GoldenTrace.Json
