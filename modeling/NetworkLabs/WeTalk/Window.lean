import NetworkLabs.WeTalk.Endpoint

/-!
# The window of wetalk

The same endpoint with a window instead of a terminal: lines are typed into an entry, what was typed
stands in one label and what arrived in another one below it. Both labels only grow, and are copied
into an array of 500 bytes whenever something is added to them; every text that is added goes
through arrays of 52 bytes. Nothing checks that these are long enough.

## Main definitions

* `Window`: the endpoint and the two labels
* `Gui.buttonClickedEvent`, `Gui.packetHandler`, `Gui.handleSignalAlarm`: the three handlers
* `guiWetalk`: the window as a machine
* `typedText`, `barText`: what an input adds to the first label, and an output to the second one
* `Fits`: the arrays are long enough for what a run has shown

## Main results

* `buttonClickedEvent_eq`, `packetHandler_eq`: the handlers are those of the terminal, where they
  stay in their arrays
* `guiWetalk_run_iff`: the runs of a window are the runs of a terminal that fit
-/

namespace NetworkLabs.WeTalk

open CRuntime Transition

/-- The variables of the endpoint, and the texts of the labels `messageBar1` and `messageBar2`. -/
structure Window where
  endpoint : Endpoint
  messageBar1 : List UInt8
  messageBar2 : List UInt8

/-- A window at its start. -/
def Window.opened : Window where
  endpoint := initial
  messageBar1 := []
  messageBar2 := []

/-! ## The texts -/

/-- `" \n"`, behind every text. -/
def lineEnd : List UInt8 := [32, 10]

/-- `"| chat request from %s %d \n"`. -/
def chatRequestText (src : SockAddr) : List UInt8 :=
  [124, 32, 99, 104, 97, 116, 32, 114, 101, 113, 117, 101, 115, 116, 32, 102, 114, 111, 109, 32] ++
    dottedQuad src.sin_addr ++ [32] ++ sprintfInt (ntohs src.sin_port).toNat ++ lineEnd

/-- `"| doesn't want to chat \n"`. -/
def refusedText : List UInt8 :=
  [124, 32, 100, 111, 101, 115, 110, 39, 116, 32, 119, 97, 110, 116, 32, 116, 111, 32, 99, 104, 97,
    116] ++ lineEnd

/-- `"| chat terminated \n"`. -/
def terminatedText : List UInt8 :=
  [124, 32, 99, 104, 97, 116, 32, 116, 101, 114, 109, 105, 110, 97, 116, 101, 100] ++ lineEnd

/-- `"| %s \n"`. -/
def shownText (final_string : List UInt8) : List UInt8 := [124, 32] ++ final_string ++ lineEnd

/-! ## The handlers -/

namespace Gui

/-- `sprintf` into an array of 52 bytes. -/
def sprintfInto52 (text : List UInt8) : Option (List UInt8) :=
  if text.length < 52 then some text else none

/-- The label `bar` with a text behind it: `aux` takes 500 bytes and `msg`, which the text goes
through, takes 52. -/
def appendToBar (bar text : List UInt8) : Option (List UInt8) :=
  if bar.length < 500 ∧ text.length < 52 ∧ bar.length + text.length < 500 then some (bar ++ text)
  else none

/-- `printfToMyMessageBar`. -/
def printfToMyMessageBar (w : Window) (format : List UInt8) : Option Window :=
  (appendToBar w.messageBar1 format).map fun aux => { w with messageBar1 := aux }

/-- `printfToTheirMessageBar`. -/
def printfToTheirMessageBar (w : Window) (format : List UInt8) : Option Window :=
  (appendToBar w.messageBar2 format).map fun aux => { w with messageBar2 := aux }

/-- `buttonClickedEvent` on the text of the entry; `none` when it leaves an array. -/
def buttonClickedEvent (gethostbyname : List UInt8 → Option UInt32) (w : Window)
    (text : List UInt8) : Option (Window × List Output) :=
  -- more than 50 characters have no terminator here, and are too many for `bufToSend`
  let toProcess := (cstring text).take 51
  if toProcess = [] then some (w, [])
  else do
    let bufToSend ← sprintfInto52 (toProcess ++ lineEnd)
    let w ← printfToMyMessageBar w bufToSend
    let s := w.endpoint
    if s.connection = false then
      match s.opp with
      | some opp =>
        if toProcess = cmdC then
          return ({ w with endpoint := { s with connection := true } }, [.sendto opp okChk])
        else if toProcess = cmdN then
          let s := { s with connection := false, opp_server_pointer := none }
          return ({ w with endpoint := s }, [.sendto opp nkoChk])
        else return (w, [])
      | none =>
        if toProcess = cmdQ then return ({ w with endpoint := { s with running := false } }, [])
        else
          match typedPeer gethostbyname toProcess with
          | some peer =>
            let s :=
              { s with
                opp_server := peer
                opp_server_pointer := some .opp_server
                received := false }
            return ({ w with endpoint := s }, [.sendto peer wannatalk])
          | none => return (w, [.invalidPeer])
    else
      match s.opp with
      | some opp =>
        if toProcess = cmdE then
          let s := { s with connection := false, opp_server_pointer := none }
          return ({ w with endpoint := s }, [.sendto opp eChk])
        else return (w, [.sendto opp (68 :: toProcess)])
      | none => return (w, [.wronglyAssumes])

/-- One round of the loop of `packet_handler`; `none` when it leaves an array. -/
def packetHandler (w : Window) (src : SockAddr) (d : List UInt8) : Option Window :=
  let s := { w.endpoint with their_addr := src }
  if d = [] then some { w with endpoint := s }
  -- `buf[rc]` of a datagram that fills `buf`
  else if 52 ≤ d.length then none
  else do
    let buf := cstring d
    if s.connection = false then
      let w ←
        if buf = wannatalk then do
          let buffToPrint ← sprintfInto52 (chatRequestText src)
          let s := { s with opp_server_pointer := some .their_addr }
          printfToTheirMessageBar { w with endpoint := s } buffToPrint
        else some { w with endpoint := s }
      let s := w.endpoint
      if s.received = false then
        if buf = okChk then
          return { w with endpoint := { s with received := true, connection := true } }
        else if buf = nkoChk then
          let s := { s with received := true, connection := false, opp_server_pointer := none }
          let buffToPrint ← sprintfInto52 refusedText
          printfToTheirMessageBar { w with endpoint := s } buffToPrint
        else return w
      else return w
    else if buf = eChk then
      let s := { s with connection := false, opp_server_pointer := none }
      let buffToPrint ← sprintfInto52 terminatedText
      printfToTheirMessageBar { w with endpoint := s } buffToPrint
    else if buf.head? = some 68 then
      let buffToPrint ← sprintfInto52 (shownText buf.tail)
      printfToTheirMessageBar { w with endpoint := s } buffToPrint
    else return { w with endpoint := s }

/-- `handle_signal_alarm`. -/
def handleSignalAlarm (w : Window) : Window × List Output :=
  let s := w.endpoint
  if s.received = false then
    let s := { s with connection := false, opp_server_pointer := none, received := true }
    ({ w with endpoint := s }, [.noResponse])
  else (w, [])

end Gui

/-- The window as a machine; it accepts nothing once it has been left. Its outputs are what it
sends, and where it prints on the terminal that it was started from. -/
def guiWetalk (gethostbyname : List UInt8 → Option UInt32) : Machine Window Input Output where
  step w i :=
    if w.endpoint.running then
      match i with
      | .typed text => Gui.buttonClickedEvent gethostbyname w text
      | .datagram src d => (Gui.packetHandler w src d).map fun w => (w, [])
      | .alarm => some (Gui.handleSignalAlarm w)
    else none

/-! ## What the labels show -/

/-- What an input adds to the first label. -/
def typedText : Input → List UInt8
  | .typed text => if cstring text = [] then [] else cstring text ++ lineEnd
  | _ => []

/-- What the second label shows of an output. -/
def barText : Output → List UInt8
  | .chatRequest src => chatRequestText src
  | .refused => refusedText
  | .terminated => terminatedText
  | .shown text => shownText text
  | _ => []

/-- The array that an input is put into takes 52 bytes. -/
def Input.Fits : Input → Prop
  | .datagram _ d => d.length < 52
  | i => (typedText i).length < 52

instance : DecidablePred Input.Fits
  | .typed text => inferInstanceAs (Decidable ((typedText (.typed text)).length < 52))
  | .datagram _ d => inferInstanceAs (Decidable (d.length < 52))
  | .alarm => inferInstanceAs (Decidable ((typedText .alarm).length < 52))

/-- The arrays are long enough for inputs, for the outputs of a terminal, and for labels. -/
structure Fits (is : List Input) (tr : List Output) (bar₁ bar₂ : List UInt8) : Prop where
  input : ∀ i ∈ is, i.Fits
  note : ∀ e ∈ tr, (barText e).length < 52
  bar₁_lt : bar₁.length < 500
  bar₂_lt : bar₂.length < 500

theorem fits_iff {is : List Input} {tr : List Output} {bar₁ bar₂ : List UInt8} :
    Fits is tr bar₁ bar₂ ↔ (∀ i ∈ is, i.Fits) ∧ (∀ e ∈ tr, (barText e).length < 52) ∧
      bar₁.length < 500 ∧ bar₂.length < 500 :=
  ⟨fun h => ⟨h.input, h.note, h.bar₁_lt, h.bar₂_lt⟩, fun h => ⟨h.1, h.2.1, h.2.2.1, h.2.2.2⟩⟩

instance (is : List Input) (tr : List Output) (bar₁ bar₂ : List UInt8) :
    Decidable (Fits is tr bar₁ bar₂) :=
  decidable_of_iff _ fits_iff.symm

section Handlers

variable {w : Window} (gethostbyname : List UInt8 → Option UInt32)

theorem bind_appendToBar {α : Type} (bar text : List UInt8) (next : List UInt8 → Option α) :
    ((Gui.sprintfInto52 text).bind fun buf => (Gui.appendToBar bar buf).bind next) =
      if text.length < 52 ∧ (bar ++ text).length < 500 then next (bar ++ text) else none := by
  unfold Gui.sprintfInto52
  by_cases htext : text.length < 52
  · rw [if_pos htext, Option.bind_some, Gui.appendToBar, List.length_append]
    by_cases hbar : bar.length + text.length < 500
    · rw [if_pos ⟨by omega, htext, hbar⟩, if_pos ⟨htext, hbar⟩, Option.bind_some]
    · rw [if_neg fun h => hbar h.2.2, if_neg fun h => hbar h.2, Option.bind_none]
  · rw [if_neg htext, if_neg fun h => htext h.1, Option.bind_none]

/-- What is typed is put into an array and then into the first label. -/
theorem bind_printfToMyMessageBar {α : Type} (w : Window) (text : List UInt8)
    (next : Window → Option α) :
    ((Gui.sprintfInto52 text).bind fun buf => (Gui.printfToMyMessageBar w buf).bind next) =
      if text.length < 52 ∧ (w.messageBar1 ++ text).length < 500 then
        next { w with messageBar1 := w.messageBar1 ++ text }
      else none := by
  simp only [Gui.printfToMyMessageBar, Option.bind_map]
  exact bind_appendToBar ..

/-- A note is put into an array and then into the second label. -/
theorem bind_printfToTheirMessageBar {α : Type} (w : Window) (text : List UInt8)
    (next : Window → Option α) :
    ((Gui.sprintfInto52 text).bind fun buf => (Gui.printfToTheirMessageBar w buf).bind next) =
      if text.length < 52 ∧ (w.messageBar2 ++ text).length < 500 then
        next { w with messageBar2 := w.messageBar2 ++ text }
      else none := by
  simp only [Gui.printfToTheirMessageBar, Option.bind_map]
  exact bind_appendToBar ..

theorem note_eq (w : Window) (text : List UInt8) :
    (Gui.sprintfInto52 text).bind (Gui.printfToTheirMessageBar w) =
      if text.length < 52 ∧ (w.messageBar2 ++ text).length < 500 then
        some { w with messageBar2 := w.messageBar2 ++ text }
      else none := by
  simpa using bind_printfToTheirMessageBar w text some

theorem outside_of_barText {e : Output} (h : e.outside = true) : barText e = [] := by
  cases e with
  | sendto | noResponse | invalidPeer | wronglyAssumes => rfl
  | _ => cases h

/-- **A click is a typed line**, where the line fits. -/
theorem buttonClickedEvent_eq (text : List UInt8) (hbar : w.messageBar1.length < 500) :
    Gui.buttonClickedEvent gethostbyname w text =
      if (Input.typed text).Fits ∧ (w.messageBar1 ++ typedText (.typed text)).length < 500 then
        some ({ w with
            endpoint := (weChatServer gethostbyname w.endpoint text).1
            messageBar1 := w.messageBar1 ++ typedText (.typed text) },
          (weChatServer gethostbyname w.endpoint text).2)
      else none := by
  unfold Gui.buttonClickedEvent Input.Fits typedText weChatServer
  by_cases hline : cstring text = []
  · simp [hline, hbar]
  · simp only [if_neg hline]
    by_cases hlen : (cstring text).length ≤ 50
    · rw [List.take_of_length_le (by omega), if_neg hline]
      simp only [Option.bind_eq_bind, bind_printfToMyMessageBar]
      apply ite_congr rfl _ fun _ => rfl
      intro _
      -- the two programs make the same choices
      cases w.endpoint.connection with
      | false =>
        simp only [if_true]
        cases w.endpoint.opp with
        | some opp => split_ifs <;> rfl
        | none =>
          dsimp only
          split_ifs
          · rfl
          · cases typedPeer gethostbyname (cstring text) <;> rfl
      | true =>
        cases w.endpoint.opp with
        | some opp => split_ifs <;> rfl
        | none => rfl
    · have hlong : ((cstring text).take 51).length = 51 := by
        rw [List.length_take]
        omega
      have hne : (cstring text).take 51 ≠ [] := by
        intro h
        rw [h] at hlong
        cases hlong
      rw [if_neg hne, Gui.sprintfInto52, if_neg, if_neg]
      · rfl
      · simp only [List.length_append, lineEnd, List.length_cons]
        omega
      · rw [List.length_append, hlong]
        decide

/-- **A datagram is a datagram**, where it and its note fit. -/
theorem packetHandler_eq (src : SockAddr) (d : List UInt8) (hbar : w.messageBar2.length < 500) :
    Gui.packetHandler w src d =
      if d.length < 52 ∧ (∀ e ∈ (packetHandler w.endpoint src d).2, (barText e).length < 52) ∧
          (w.messageBar2 ++ (packetHandler w.endpoint src d).2.flatMap barText).length < 500 then
        some { w with
          endpoint := (packetHandler w.endpoint src d).1
          messageBar2 := w.messageBar2 ++ (packetHandler w.endpoint src d).2.flatMap barText }
      else none := by
  unfold Gui.packetHandler packetHandler
  by_cases hd : d = []
  · simp [hd, hbar]
  by_cases hlen : d.length < 52
  · rw [List.take_of_length_le (by omega)]
    simp only [if_neg hd, if_neg (Nat.not_le.mpr hlen), hlen, true_and]
    rcases w with ⟨⟨connection, received, ptr, their_addr, opp_server, running⟩, bar₁, bar₂⟩
    generalize cstring d = buf
    -- the comparisons in the order of the source, each in all states
    by_cases h₁ : buf = wannatalk
    · subst h₁
      cases connection <;> cases received <;>
        simp [note_eq, hbar, barText, wannatalk, okChk, nkoChk, eChk]
    · by_cases h₂ : buf = okChk
      · subst h₂
        cases connection <;> cases received <;> simp [hbar, barText, wannatalk, okChk, eChk]
      · by_cases h₃ : buf = nkoChk
        · subst h₃
          cases connection <;> cases received <;>
            simp [note_eq, hbar, barText, wannatalk, okChk, nkoChk, eChk]
        · by_cases h₄ : buf = eChk
          · subst h₄
            cases connection <;> cases received <;>
              simp [note_eq, hbar, barText, wannatalk, okChk, nkoChk, eChk]
          -- what is left is text, or nothing
          · by_cases h₅ : buf.head? = some 68
            · cases connection <;> cases received <;>
                simp [note_eq, h₁, h₂, h₃, h₄, h₅, hbar, barText]
            · cases connection <;> cases received <;> simp [h₁, h₂, h₃, h₄, h₅, hbar]
  · simp only [if_neg hd, if_pos (Nat.not_lt.mp hlen)]
    rw [if_neg fun h => hlen h.1]

end Handlers

/-! ## The runs -/

section Runs

variable {gethostbyname : List UInt8 → Option UInt32} {w w' : Window} {i : Input}
  {is : List Input} {o tr : List Output}

/-- What a typed line sends and prints is not for the second label. -/
theorem outside_weChatServer (s : Endpoint) (line : List UInt8) :
    ∀ e ∈ (weChatServer gethostbyname s line).2, e.outside = true := by
  have h := typed_weChatServer gethostbyname s line
  generalize (weChatServer gethostbyname s line).1 = t at h
  generalize (weChatServer gethostbyname s line).2 = o at h
  cases h <;> simp [Output.outside]

theorem outside_handleSignalAlarm (s : Endpoint) :
    ∀ e ∈ (handleSignalAlarm s).2, e.outside = true := by
  unfold handleSignalAlarm
  split_ifs <;> simp [Output.outside]

theorem handleSignalAlarm_eq (w : Window) : Gui.handleSignalAlarm w =
    ({ w with endpoint := (handleSignalAlarm w.endpoint).1 },
      (handleSignalAlarm w.endpoint).2) := by
  unfold Gui.handleSignalAlarm handleSignalAlarm
  dsimp only
  split_ifs <;> rfl

/-- A window that a terminal's step has changed. -/
def Window.after (w : Window) (i : Input) (s : Endpoint) (tr : List Output) : Window where
  endpoint := s
  messageBar1 := w.messageBar1 ++ typedText i
  messageBar2 := w.messageBar2 ++ tr.flatMap barText

/-- Outputs that are not for the second label leave it as it is. -/
theorem after_of_outside (h : ∀ e ∈ tr, e.outside = true) (s : Endpoint) :
    w.after i s tr =
      { w with endpoint := s, messageBar1 := w.messageBar1 ++ typedText i } := by
  have hnone : tr.flatMap barText = [] :=
    List.flatMap_eq_nil_iff.mpr fun e he => outside_of_barText (h e he)
  rw [Window.after, hnone, List.append_nil]

theorem fits_of_outside (h : ∀ e ∈ tr, e.outside = true) {bar₁ bar₂ : List UInt8}
    (h₂ : bar₂.length < 500) : Fits [i] tr bar₁ bar₂ ↔ i.Fits ∧ bar₁.length < 500 := by
  have hnote : ∀ e ∈ tr, (barText e).length < 52 := by
    intro e he
    rw [outside_of_barText (h e he)]
    exact Nat.zero_lt_succ 51
  rw [fits_iff]
  exact ⟨fun hf => ⟨hf.1 i (by simp), hf.2.2.1⟩, fun hf => ⟨by simpa using hf.1, hnote, hf.2, h₂⟩⟩

/-- **A step of a window is a step of a terminal that fits.** -/
theorem guiWetalk_step_eq (h₁ : w.messageBar1.length < 500) (h₂ : w.messageBar2.length < 500) :
    (guiWetalk gethostbyname).step w i =
      ((wetalk gethostbyname).step w.endpoint i).bind fun p =>
        if Fits [i] p.2 (w.after i p.1 p.2).messageBar1 (w.after i p.1 p.2).messageBar2 then
          some (w.after i p.1 p.2, p.2.filter Output.outside)
        else none := by
  by_cases hrun : w.endpoint.running = true
  · cases i with
    | typed text =>
      have hout : ∀ e ∈ (weChatServer gethostbyname w.endpoint text).2, e.outside = true :=
        outside_weChatServer w.endpoint text
      simp only [guiWetalk, wetalk, hrun, if_true, Option.bind_some]
      rw [buttonClickedEvent_eq gethostbyname text h₁, after_of_outside hout,
        List.filter_eq_self.mpr hout]
      exact ite_congr (propext (fits_of_outside hout h₂).symm) (fun _ => rfl) fun _ => rfl
    | datagram src d =>
      have hout := outside_packetHandler w.endpoint src d
      have hnone : (packetHandler w.endpoint src d).2.filter Output.outside = [] := by
        rw [List.filter_eq_nil_iff]
        exact fun e he => by simp [hout e he]
      simp only [guiWetalk, wetalk, hrun, if_true, Option.bind_some]
      rw [packetHandler_eq src d h₂, hnone, apply_ite (Option.map _), Option.map_none]
      apply ite_congr
      · rw [fits_iff]
        simp [Window.after, typedText, Input.Fits, h₁]
      · intro _
        simp [Window.after, typedText]
      · exact fun _ => rfl
    | alarm =>
      have hout := outside_handleSignalAlarm w.endpoint
      have hfits := (fits_of_outside (i := .alarm) hout h₂).mpr ⟨Nat.zero_lt_succ 51, h₁⟩
      simp only [guiWetalk, wetalk, hrun, if_true, Option.bind_some]
      rw [handleSignalAlarm_eq, after_of_outside hout, List.filter_eq_self.mpr hout, if_pos]
      · simp [typedText]
      · simpa [typedText] using hfits
  · simp only [guiWetalk, wetalk, if_neg hrun, Option.bind_none]

/-- A row of inputs fits when its first one does and the rest, since the labels only grow. -/
theorem fits_cons_iff {o' : List Output} {bar₁ bar₂ text₁ text₂ : List UInt8} :
    Fits (i :: is) (o ++ o') (bar₁ ++ text₁) (bar₂ ++ text₂) ↔
      Fits [i] o bar₁ bar₂ ∧ Fits is o' (bar₁ ++ text₁) (bar₂ ++ text₂) := by
  simp only [fits_iff, List.forall_mem_cons, List.forall_mem_append, List.length_append,
    List.not_mem_nil, false_implies, implies_true, and_true]
  constructor
  · rintro ⟨⟨hi, his⟩, ⟨ho, ho'⟩, h₁, h₂⟩
    exact ⟨⟨hi, ho, by omega, by omega⟩, his, ho', h₁, h₂⟩
  · rintro ⟨⟨hi, ho, -, -⟩, his, ho', h₁, h₂⟩
    exact ⟨⟨hi, his⟩, ⟨ho, ho'⟩, h₁, h₂⟩

theorem run_iff_of_lt (h₁ : w.messageBar1.length < 500) (h₂ : w.messageBar2.length < 500) :
    (guiWetalk gethostbyname).run w is = some (w', o) ↔
      ∃ tr, (wetalk gethostbyname).run w.endpoint is = some (w'.endpoint, tr) ∧
        o = tr.filter Output.outside ∧
        w'.messageBar1 = w.messageBar1 ++ is.flatMap typedText ∧
        w'.messageBar2 = w.messageBar2 ++ tr.flatMap barText ∧
        Fits is tr w'.messageBar1 w'.messageBar2 := by
  induction is generalizing w o with
  | nil =>
    constructor
    · intro h
      obtain ⟨rfl, rfl⟩ := Prod.mk.inj (Option.some.inj h)
      exact ⟨[], by simp, by simp, by simp, by simp, ⟨by simp, by simp, h₁, h₂⟩⟩
    · rintro ⟨tr, hrun, rfl, hbar₁, hbar₂, -⟩
      obtain ⟨hend, rfl⟩ := Prod.mk.inj (Option.some.inj hrun)
      have hw : w = w' := by
        rcases w with ⟨s, bar₁, bar₂⟩
        rcases w' with ⟨s', bar₁', bar₂'⟩
        simp_all
      rw [hw]
      rfl
  | cons i is ih =>
    have htext₁ : w.messageBar1 ++ (i :: is).flatMap typedText =
        w.messageBar1 ++ typedText i ++ is.flatMap typedText := by simp
    have htext₂ (p tr : List Output) : w.messageBar2 ++ (p ++ tr).flatMap barText =
        w.messageBar2 ++ p.flatMap barText ++ tr.flatMap barText := by simp
    simp only [Machine.run_cons_eq_some_iff, guiWetalk_step_eq h₁ h₂, Option.bind_eq_some_iff,
      Option.ite_none_right_eq_some]
    constructor
    · rintro ⟨t, o₁, o₂, ⟨p, hterm, hfit, heq⟩, hrest, rfl⟩
      obtain ⟨rfl, rfl⟩ := Prod.mk.inj (Option.some.inj heq)
      obtain ⟨tr, hrun, rfl, hbar₁, hbar₂, hfits⟩ := (ih hfit.bar₁_lt hfit.bar₂_lt).mp hrest
      rw [hbar₁, hbar₂] at hfits
      refine ⟨p.2 ++ tr, ⟨p.1, p.2, tr, hterm, hrun, rfl⟩, (List.filter_append ..).symm, ?_, ?_, ?_⟩
      · rw [hbar₁, htext₁, Window.after]
      · rw [hbar₂, htext₂, Window.after]
      · rw [hbar₁, hbar₂]
        exact fits_cons_iff.mpr ⟨hfit, hfits⟩
    · rintro ⟨-, ⟨s, o₁, tr, hterm, hrun, rfl⟩, rfl, hbar₁, hbar₂, hfits⟩
      rw [htext₁] at hbar₁
      rw [htext₂] at hbar₂
      rw [hbar₁, hbar₂] at hfits
      obtain ⟨hfit, hrest⟩ := fits_cons_iff.mp hfits
      refine ⟨w.after i s o₁, _, tr.filter Output.outside, ⟨(s, o₁), hterm, hfit, rfl⟩, ?_,
        List.filter_append ..⟩
      apply (ih hfit.bar₁_lt hfit.bar₂_lt).mpr
      refine ⟨tr, hrun, rfl, hbar₁, hbar₂, ?_⟩
      rw [hbar₁, hbar₂]
      exact hrest

/-- **A window does what a terminal does, as long as everything fits**: the runs of the window are
the runs of the terminal on the same inputs in which every text is shorter than 52 bytes and the
labels stay below 500; the labels then hold what was typed and what the terminal has printed, and
what is sent is the same. -/
theorem guiWetalk_run_iff (gethostbyname : List UInt8 → Option UInt32) (is : List Input)
    (w : Window) (o : List Output) :
    (guiWetalk gethostbyname).run Window.opened is = some (w, o) ↔
      ∃ tr, (wetalk gethostbyname).run initial is = some (w.endpoint, tr) ∧
        o = tr.filter Output.outside ∧ w.messageBar1 = is.flatMap typedText ∧
        w.messageBar2 = tr.flatMap barText ∧ Fits is tr w.messageBar1 w.messageBar2 :=
  run_iff_of_lt (Nat.zero_lt_succ 499) (Nat.zero_lt_succ 499)

/-- Somebody asks for a session, is accepted, and says `n` letters. -/
def talkative (n : ℕ) : List Input :=
  [.datagram ⟨7, 256⟩ wannatalk, .typed cmdC, .datagram ⟨7, 256⟩ (68 :: List.replicate n 97)]

/-- What a terminal prints of them. -/
def heardOf (n : ℕ) : List Output :=
  [.chatRequest ⟨7, 256⟩, .sendto ⟨7, 256⟩ okChk, .shown (List.replicate n 97)]

/-- The endpoint after it. -/
def inTalk : Endpoint :=
  { initial with
    connection := true
    opp_server_pointer := some .their_addr
    their_addr := ⟨7, 256⟩ }

/-- 47 letters fit the window, and 48 do not: then it leaves an array. -/
theorem guiWetalk_run_talkative :
    (guiWetalk fun _ => none).run Window.opened (talkative 47) =
        some (⟨inTalk, (talkative 47).flatMap typedText, (heardOf 47).flatMap barText⟩,
          [.sendto ⟨7, 256⟩ okChk]) ∧
      (guiWetalk fun _ => none).run Window.opened (talkative 48) = none := by
  constructor
  · have hrun : (wetalk fun _ => none).run initial (talkative 47) = some (inTalk, heardOf 47) := rfl
    have hfits : Fits (talkative 47) (heardOf 47) ((talkative 47).flatMap typedText)
        ((heardOf 47).flatMap barText) := by decide
    exact (guiWetalk_run_iff _ _ _ _).mpr ⟨heardOf 47, hrun, rfl, rfl, rfl, hfits⟩
  · have hrun : (wetalk fun _ => none).run initial (talkative 48) = some (inTalk, heardOf 48) := rfl
    rw [Option.eq_none_iff_forall_ne_some]
    rintro ⟨w, o⟩ h
    obtain ⟨tr, hterm, -, -, -, hfits⟩ := (guiWetalk_run_iff _ _ w o).mp h
    obtain ⟨-, rfl⟩ := Prod.mk.inj (Option.some.inj (hrun.symm.trans hterm))
    have hnote := hfits.note (.shown (List.replicate 48 97)) (by simp [heardOf])
    exact absurd hnote (by decide)

end Runs

end NetworkLabs.WeTalk
