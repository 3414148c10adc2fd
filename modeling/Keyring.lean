import Keyring.Ascending
import Keyring.Config
import Keyring.Error
import Keyring.FileSystem
import Keyring.Gateway
import Keyring.Hex
import Keyring.Id
import Keyring.Id.Json
import Keyring.Json.Decode
import Keyring.Json.Number
import Keyring.Json.Text
import Keyring.Json.Value
import Keyring.Key
import Keyring.KeySource
import Keyring.Proofs.Config
import Keyring.Proofs.Encoding
import Keyring.Proofs.Extension
import Keyring.Proofs.Files
import Keyring.Proofs.Handwritten
import Keyring.Proofs.Hex
import Keyring.Proofs.IdOrder
import Keyring.Proofs.IdText
import Keyring.Proofs.Json.Grammar
import Keyring.Proofs.Json.Id
import Keyring.Proofs.Json.Literal
import Keyring.Proofs.Json.Object
import Keyring.Proofs.KeyGrammar
import Keyring.Proofs.KeyText
import Keyring.Proofs.LastRecord
import Keyring.Proofs.Loading
import Keyring.Proofs.Records
import Keyring.Proofs.Secp256k1.Curve
import Keyring.Proofs.Secp256k1.Point
import Keyring.Proofs.Secp256k1.Prime
import Keyring.Proofs.Store.Additions
import Keyring.Proofs.Store.Effect
import Keyring.Proofs.Store.Found
import Keyring.Proofs.Store.Generation
import Keyring.Proofs.Store.Interleaving
import Keyring.Proofs.Store.Lookup
import Keyring.Proofs.Store.Memory
import Keyring.Proofs.Store.Secrecy
import Keyring.Proofs.Text.Utf8
import Keyring.Proofs.Unambiguous
import Keyring.Proofs.Yaml.Append
import Keyring.Proofs.Yaml.Blank
import Keyring.Proofs.Yaml.Content
import Keyring.Proofs.Yaml.Ending
import Keyring.Proofs.Yaml.Entry
import Keyring.Proofs.Yaml.Events
import Keyring.Proofs.Yaml.Extension
import Keyring.Proofs.Yaml.Frames
import Keyring.Proofs.Yaml.LastEntry
import Keyring.Proofs.Yaml.Mapping
import Keyring.Proofs.Yaml.Parse
import Keyring.Proofs.Yaml.Reading
import Keyring.Proofs.Yaml.Rule
import Keyring.Proofs.Yaml.Scan
import Keyring.Proofs.Yaml.Seam.Arrival
import Keyring.Proofs.Yaml.Seam.Break
import Keyring.Proofs.Yaml.Seam.Line
import Keyring.Proofs.Yaml.Seam.OnLine
import Keyring.Proofs.Yaml.Seam.Reach
import Keyring.Proofs.Yaml.Seam.Scalar
import Keyring.Proofs.Yaml.Seam.Step
import Keyring.Proofs.Yaml.Seam.Token
import Keyring.Proofs.Yaml.Seam.Tokens
import Keyring.Proofs.Yaml.Seam.Walk
import Keyring.Proofs.Yaml.Sheet
import Keyring.Proofs.Yaml.Sound
import Keyring.Proofs.Yaml.Source
import Keyring.Proofs.Yaml.Value
import Keyring.PublicKey
import Keyring.Record
import Keyring.Secp256k1
import Keyring.Session
import Keyring.Sha256
import Keyring.Shape
import Keyring.Store
import Keyring.SystemError
import Keyring.Text.Quoted
import Keyring.Text.Utf8
import Keyring.Yaml.Cursor
import Keyring.Yaml.Decode
import Keyring.Yaml.Document
import Keyring.Yaml.Event
import Keyring.Yaml.Lexeme.Block
import Keyring.Yaml.Lexeme.Gap
import Keyring.Yaml.Lexeme.Line
import Keyring.Yaml.Lexeme.Plain
import Keyring.Yaml.Lexeme.Quoted
import Keyring.Yaml.Scalar
import Keyring.Yaml.Source
import Keyring.Yaml.Tokens
