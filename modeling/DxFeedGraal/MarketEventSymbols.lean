import DxFeedGraal.CppStrings

/-! # Market event symbols

A symbol is a base, an optional exchange code `&x` and an optional list of attributes
`{key=value,...}`. The operations edit the text in place. -/
namespace MarketEventSymbols

open CppStrings

abbrev exchangeSeparator : Char := '&'
abbrev attributesOpen : Char := '{'
abbrev attributesClose : Char := '}'
abbrev attributesSeparator : Char := ','
abbrev attributeValue : Char := '='

def hasExchangeCodeInternal (symbol : Text) (length : ℕ) : Bool :=
  decide (2 ≤ length) && charAt symbol (length - 2) == exchangeSeparator

def getBaseSymbolInternal (symbol : Text) (length : ℕ) : Cpp Text :=
  noexcept <|
    if hasExchangeCodeInternal symbol length then substr symbol 0 (length - 2)
    else substr symbol 0 length

def hasAttributesInternal (symbol : Text) : Bool :=
  if 3 ≤ symbol.length ∧ charAt symbol (symbol.length - 1) = attributesClose then
    match findLastOf attributesOpen symbol (symbol.length - 2) with
    | some attributesOpenPos => decide (attributesOpenPos < symbol.length - 2)
    | none => false
  else
    false

def getLengthWithoutAttributesInternal (symbol : Text) : ℕ :=
  if hasAttributesInternal symbol then
    (findLastOf attributesOpen symbol symbol.length).getD npos
  else
    symbol.length

/-- Every exception is caught and gives no key. -/
def getKeyInternal (symbol : Text) (i : ℕ) : Option Text :=
  match findFirstOf attributeValue symbol i with
  | some found => (substr symbol i (sizeSub found i)).toOption
  | none => none

def getNextKeyInternal (symbol : Text) (i : ℕ) : ℕ :=
  let valuePos := succPos (findFirstOf attributeValue symbol i)
  match findFirstOf attributesSeparator symbol valuePos with
  | none => symbol.length
  | some separatorPos => separatorPos + 1

def getValueInternal (symbol : Text) (i j : ℕ) : Cpp Text :=
  let valueOffset := succPos (findFirstOf attributeValue symbol i)
  substr symbol valueOffset (sizeSub (sizeSub j 1) valueOffset)

/-- Every exception is caught and leaves the symbol as it was. -/
def dropKeyAndValueInternal (symbol : Text) (length i j : ℕ) : Text :=
  let dropped : Cpp Text :=
    if j = symbol.length then
      if i = length + 1 then
        substr symbol 0 length
      else do
        return (← substr symbol 0 (sizeSub i 1)) ++ (← substrFrom symbol (sizeSub j 1))
    else do
      return (← substr symbol 0 i) ++ (← substrFrom symbol j)
  match dropped with
  | .ok result => result
  | .error _ => symbol

def getAttributeLoop (key symbol : Text) : ℕ → ℕ → Cpp (Option Text)
  | 0, _ => .error .unfinished
  | fuel + 1, i =>
    if i < symbol.length then
      match getKeyInternal symbol i with
      | none => .ok none
      | some currentKey =>
        let j := getNextKeyInternal symbol i
        if key = currentKey then
          some <$> getValueInternal symbol i j
        else
          getAttributeLoop key symbol fuel j
    else
      .ok none

def getAttributeInternal (symbol : Text) (lengthWithoutAttributes : ℕ) (key : Text) :
    Cpp (Option Text) :=
  if lengthWithoutAttributes = symbol.length then .ok none
  else getAttributeLoop key symbol (symbol.length + 1) (lengthWithoutAttributes + 1)

def removeAttributeLoop (key : Text) (lengthWithoutAttributes : ℕ) : ℕ → Text → ℕ → Cpp Text
  | 0, _, _ => .error .unfinished
  | fuel + 1, symbol, i =>
    if i < symbol.length then
      match getKeyInternal symbol i with
      | none => .ok symbol
      | some currentKey =>
        let j := getNextKeyInternal symbol i
        if key = currentKey then
          removeAttributeLoop key lengthWithoutAttributes fuel
            (dropKeyAndValueInternal symbol lengthWithoutAttributes i j) i
        else
          removeAttributeLoop key lengthWithoutAttributes fuel symbol j
    else
      .ok symbol

def removeAttributeInternal (symbol : Text) (lengthWithoutAttributes : ℕ) (key : Text) : Cpp Text :=
  noexcept <|
    if lengthWithoutAttributes = symbol.length then .ok symbol
    else removeAttributeLoop key lengthWithoutAttributes (symbol.length + 1) symbol
      (lengthWithoutAttributes + 1)

/-- The text of one attribute. -/
def keyAndValue (key value : Text) : Text := key ++ attributeValue :: value

/-- Ends with the symbol, the position reached and whether the key was written. -/
def addAttributeLoop (key value : Text) (lengthWithoutAttributes : ℕ) :
    ℕ → Text → ℕ → Bool → Cpp (Text × ℕ × Bool)
  | 0, _, _, _ => .error .unfinished
  | fuel + 1, symbol, i, added =>
    if i < symbol.length then
      match getKeyInternal symbol i with
      | none => .ok (symbol, i, added)
      | some currentKey =>
        let j := getNextKeyInternal symbol i
        if currentKey = key then
          if added then
            addAttributeLoop key value lengthWithoutAttributes fuel
              (dropKeyAndValueInternal symbol lengthWithoutAttributes i j) i added
          else do
            let before ← substr symbol 0 i
            let after ← substrFrom symbol (sizeSub j 1)
            addAttributeLoop key value lengthWithoutAttributes fuel
              (before ++ keyAndValue key value ++ after) (i + (key.length + value.length + 2)) true
        else if key < currentKey ∧ added = false then do
          let before ← substr symbol 0 i
          let after ← substrFrom symbol i
          addAttributeLoop key value lengthWithoutAttributes fuel
            (before ++ keyAndValue key value ++ attributesSeparator :: after)
            (i + (key.length + value.length + 2)) true
        else
          addAttributeLoop key value lengthWithoutAttributes fuel symbol j added
    else
      .ok (symbol, i, added)

/-- What stands after the loop: a key that was not written goes to the end. -/
def addAttributeEnd (key value : Text) : Text × ℕ × Bool → Cpp Text
  | (symbol, _, true) => .ok symbol
  | (symbol, i, false) => do
    let before ← substr symbol 0 (sizeSub i 1)
    let after ← substrFrom symbol (sizeSub i 1)
    return before ++ attributesSeparator :: keyAndValue key value ++ after

def addAttributeInternal (symbol : Text) (lengthWithoutAttributes : ℕ) (key value : Text) :
    Cpp Text :=
  if lengthWithoutAttributes = symbol.length then
    .ok (symbol ++ attributesOpen :: keyAndValue key value ++ [attributesClose])
  else
    addAttributeLoop key value lengthWithoutAttributes (symbol.length + 2) symbol
      (lengthWithoutAttributes + 1) false >>= addAttributeEnd key value

def hasExchangeCode (symbol : Text) : Bool :=
  hasExchangeCodeInternal symbol (getLengthWithoutAttributesInternal symbol)

def getExchangeCode (symbol : Text) : Char :=
  if hasExchangeCode symbol then charAt symbol (getLengthWithoutAttributesInternal symbol - 1)
  else Char.ofNat 0

/-- The zero character takes the exchange code away. -/
def changeExchangeCode (symbol : Text) (exchangeCode : Char) : Cpp Text :=
  noexcept <| do
    let lengthWithoutAttributes := getLengthWithoutAttributesInternal symbol
    let base ← getBaseSymbolInternal symbol lengthWithoutAttributes
    let result := if exchangeCode = Char.ofNat 0 then base
      else base ++ [exchangeSeparator, exchangeCode]
    if lengthWithoutAttributes = symbol.length then return result
    else return result ++ (← substrFrom symbol lengthWithoutAttributes)

def getBaseSymbol (symbol : Text) : Cpp Text :=
  noexcept (getBaseSymbolInternal symbol (getLengthWithoutAttributesInternal symbol))

def changeBaseSymbol (symbol baseSymbol : Text) : Cpp Text :=
  noexcept <|
    let lengthWithoutAttributes := getLengthWithoutAttributesInternal symbol
    if hasExchangeCodeInternal symbol lengthWithoutAttributes then do
      return baseSymbol ++ exchangeSeparator :: charAt symbol (lengthWithoutAttributes - 1) ::
        (← substrFrom symbol lengthWithoutAttributes)
    else if lengthWithoutAttributes = symbol.length then .ok baseSymbol
    else do
      return baseSymbol ++ (← substrFrom symbol lengthWithoutAttributes)

def getAttributeStringByKey (symbol key : Text) : Cpp (Option Text) :=
  noexcept (getAttributeInternal symbol (getLengthWithoutAttributesInternal symbol) key)

def changeAttributeStringByKey (symbol key value : Text) : Cpp Text :=
  noexcept <|
    let lengthWithoutAttributes := getLengthWithoutAttributesInternal symbol
    if lengthWithoutAttributes = symbol.length then
      .ok (symbol ++ attributesOpen :: keyAndValue key value ++ [attributesClose])
    else
      addAttributeInternal symbol lengthWithoutAttributes key value

def removeAttributeStringByKey (symbol key : Text) : Cpp Text :=
  noexcept (removeAttributeInternal symbol (getLengthWithoutAttributesInternal symbol) key)

end MarketEventSymbols
